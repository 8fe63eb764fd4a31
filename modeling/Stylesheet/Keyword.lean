import Stylesheet.Value.Basic
/-!
Keywords that tell the parts of a shorthand apart, and the classes of values they make. Letter case
does not count.
-/

namespace Stylesheet

namespace Keyword

/-- The words every property takes. -/
def cssWide : List String :=
  ["inherit", "initial", "unset", "revert", "revert-layer"]

def borderStyles : List String :=
  ["none", "hidden", "dotted", "dashed", "solid", "double", "groove", "ridge", "inset", "outset"]

def borderWidths : List String :=
  ["thin", "medium", "thick"]

def namedColors : List String :=
  ["transparent", "currentcolor", "aliceblue", "antiquewhite", "aqua", "aquamarine", "azure",
   "beige", "bisque", "black", "blanchedalmond", "blue", "blueviolet", "brown", "burlywood",
   "cadetblue", "chartreuse", "chocolate", "coral", "cornflowerblue", "cornsilk", "crimson", "cyan",
   "darkblue", "darkcyan", "darkgoldenrod", "darkgray", "darkgreen", "darkgrey", "darkkhaki",
   "darkmagenta", "darkolivegreen", "darkorange", "darkorchid", "darkred", "darksalmon",
   "darkseagreen", "darkslateblue", "darkslategray", "darkslategrey", "darkturquoise", "darkviolet",
   "deeppink", "deepskyblue", "dimgray", "dimgrey", "dodgerblue", "firebrick", "floralwhite",
   "forestgreen", "fuchsia", "gainsboro", "ghostwhite", "gold", "goldenrod", "gray", "green",
   "greenyellow", "grey", "honeydew", "hotpink", "indianred", "indigo", "ivory", "khaki",
   "lavender", "lavenderblush", "lawngreen", "lemonchiffon", "lightblue", "lightcoral", "lightcyan",
   "lightgoldenrodyellow", "lightgray", "lightgreen", "lightgrey", "lightpink", "lightsalmon",
   "lightseagreen", "lightskyblue", "lightslategray", "lightslategrey", "lightsteelblue",
   "lightyellow", "lime", "limegreen", "linen", "magenta", "maroon", "mediumaquamarine",
   "mediumblue", "mediumorchid", "mediumpurple", "mediumseagreen", "mediumslateblue",
   "mediumspringgreen", "mediumturquoise", "mediumvioletred", "midnightblue", "mintcream",
   "mistyrose", "moccasin", "navajowhite", "navy", "oldlace", "olive", "olivedrab", "orange",
   "orangered", "orchid", "palegoldenrod", "palegreen", "paleturquoise", "palevioletred",
   "papayawhip", "peachpuff", "peru", "pink", "plum", "powderblue", "purple", "rebeccapurple",
   "red", "rosybrown", "royalblue", "saddlebrown", "salmon", "sandybrown", "seagreen", "seashell",
   "sienna", "silver", "skyblue", "slateblue", "slategray", "slategrey", "snow", "springgreen",
   "steelblue", "tan", "teal", "thistle", "tomato", "turquoise", "violet", "wheat", "white",
   "whitesmoke", "yellow", "yellowgreen"]

def fontStyles : List String :=
  ["italic", "oblique"]

def fontVariants : List String :=
  ["small-caps"]

def fontWeights : List String :=
  ["bold", "bolder", "lighter"]

def fontSizes : List String :=
  ["xx-small", "x-small", "small", "medium", "large", "x-large", "xx-large", "xxx-large", "larger",
   "smaller"]

def backgroundRepeats : List String :=
  ["repeat", "repeat-x", "repeat-y", "no-repeat", "space", "round"]

def backgroundAttachments : List String :=
  ["scroll", "fixed", "local"]

def backgroundPositions : List String :=
  ["left", "right", "top", "bottom", "center"]

/-- Functions whose values are images, gradients apart. -/
def imageFunctions : List String :=
  ["image", "image-set", "cross-fade", "element"]

end Keyword

namespace Value

def isKeywordOf (words : List String) : Value → Bool
  | keyword word => Text.isAmong words word
  | _ => false

def isCssWide (v : Value) : Bool :=
  v.isKeywordOf Keyword.cssWide

def isBorderStyle (v : Value) : Bool :=
  v.isKeywordOf Keyword.borderStyles

def isSize : Value → Bool
  | size _ => true
  | _ => false

def isBorderWidth (v : Value) : Bool :=
  v.isSize || v.isKeywordOf Keyword.borderWidths

def isColor : Value → Bool
  | hex _ => true
  | function kind _ _ => kind == .color
  | v => v.isKeywordOf Keyword.namedColors

def isFontStyle (v : Value) : Bool :=
  v.isKeywordOf Keyword.fontStyles

def isFontVariant (v : Value) : Bool :=
  v.isKeywordOf Keyword.fontVariants

/-- A number from 100 to 900 or a keyword. -/
def isFontWeight : Value → Bool
  | size s => s.unit.isNone && s.value.isBetween 100 900
  | v => v.isKeywordOf Keyword.fontWeights

def isFontSize (v : Value) : Bool :=
  v.isSize || v.isKeywordOf Keyword.fontSizes

/-- Whether the function of this name makes an image. The name of every gradient ends alike. -/
def isImageFunction (name : String) : Bool :=
  let name := Text.lower name
  "gradient".toList.isSuffixOf name.toList || Keyword.imageFunctions.contains name

def isImage : Value → Bool
  | url _ => true
  | function .plain name _ => isImageFunction name
  | v => v.isKeyword "none"

def isBackgroundRepeat (v : Value) : Bool :=
  v.isKeywordOf Keyword.backgroundRepeats

def isBackgroundAttachment (v : Value) : Bool :=
  v.isKeywordOf Keyword.backgroundAttachments

def isBackgroundPosition (v : Value) : Bool :=
  v.isSize || v.isKeywordOf Keyword.backgroundPositions

end Value
end Stylesheet
