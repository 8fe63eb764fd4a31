import Stylesheet.Proofs.Token.Numbers
import Stylesheet.Proofs.Token.Spacing
import Stylesheet.Proofs.Value.Same
import Stylesheet.Proofs.Value.Spelling
/-!
Clean values: those that are read back from their text. A value is written as tokens, one for each
part of it that is no list, pair or function, and is spelled by them; what is read differs from it
in the sign of zeros and, if the format wants that, in colors written with half the digits. Main
statements: `Value.spellsAs_tokens`, `Value.same_asRead`.
-/

namespace Stylesheet

open Lexing

namespace Value

variable {f : Format} {level : Level} {v w : Value} {ts : List Placed}

-- Whether a character that is written as it is is read as a keyword.
def standsAlone (c : Char) : Bool :=
  isSymbol c && (single c == .delimiter c || single c == .colon)

-- Whether a keyword is read back: a name, a character that stands alone, or a hash behind which
-- there is no color.
def isCleanWord (word : String) : Bool :=
  match word.toList with
  | c :: cs =>
    if c == '#' && !cs.isEmpty then cs.all (isNameChar true) && !isHexColor cs
    else if cs.isEmpty && isVerbatim word then standsAlone c
    else isName (c :: cs)
  | [] => false

def isCleanText (s : String) : Bool :=
  s.toList.all fun c => c.toNat != 0

def isCleanName (name : String) : Bool :=
  name.isEmpty || (isName name.toList && !Text.sameWord name "url")

mutual

-- Whether a value is read back from its text. A slash and a star would start a comment.
def isClean : Value → Bool
  | size ⟨.finite _, unit⟩ => isUnit unit
  | size _ => false
  | keyword word => isCleanWord word
  | hex _ => true
  | string content => isCleanText content
  | url target => isCleanText target
  | function _ name arguments => isCleanName name && argumentsAreClean arguments
  | pair first second => first.isClean && second.isClean && second.keyword? != some "*"
  | list _ items => itemsAreClean items

def argumentsAreClean : Option Value → Bool
  | some v => v.isClean
  | none => true

def itemsAreClean : List Value → Bool
  | v :: vs => v.isClean && itemsAreClean vs
  | [] => true

end

/-! ### What is read -/

def isLeaf : Value → Bool
  | function .. | pair .. | list .. => false
  | _ => true

mutual

def mapLeaves (g : Value → Value) : Value → Value
  | function kind name arguments => function kind name (mapArguments g arguments)
  | pair first second => pair (first.mapLeaves g) (second.mapLeaves g)
  | list separator items => list separator (mapItems g items)
  | v => g v

def mapArguments (g : Value → Value) : Option Value → Option Value
  | some v => some (v.mapLeaves g)
  | none => none

def mapItems (g : Value → Value) : List Value → List Value
  | v :: vs => v.mapLeaves g :: mapItems g vs
  | [] => []

end

-- The digits of a color as they are written.
def writtenDigits (short : Bool) (digits : String) : String :=
  if short && (digits.toList.length == 6 || digits.toList.length == 8) then
    match halved? digits.toList with
    | some halved => String.ofList halved
    | none => digits
  else digits

theorem writeHex_eq (short : Bool) (digits : String) :
    writeHex short digits = "#" ++ writtenDigits short digits := by
  simp only [writeHex, writtenDigits]
  split
  · cases halved? digits.toList <;> rfl
  · rfl

def shortenLeaf (short : Bool) : Value → Value
  | hex digits => hex (writtenDigits short digits)
  | v => v

def readLeaf (short : Bool) : Value → Value
  | size ⟨.finite x, unit⟩ => size ⟨.finite x.asRead, unit⟩
  | v => shortenLeaf short v

-- The value with its colors as short as the format wants them.
def shorten (f : Format) (v : Value) : Value :=
  v.mapLeaves (shortenLeaf f.shortHex)

-- The value that is read from the text of a clean one.
def asRead (f : Format) (v : Value) : Value :=
  v.mapLeaves (readLeaf f.shortHex)

mutual

theorem same_mapLeaves {g k : Value → Value} (h : ∀ v, v.isLeaf → v.isClean → (g v).same (k v)) (v : Value)
    (hc : v.isClean) : (v.mapLeaves g).same (v.mapLeaves k) := by
  match v with
  | size s | keyword s | hex s | string s | url s => simpa [mapLeaves] using h _ rfl hc
  | function kind name arguments =>
    simp only [isClean, Bool.and_eq_true] at hc
    simpa [mapLeaves, same] using same_mapArguments h arguments hc.2
  | pair first second =>
    simp only [isClean, Bool.and_eq_true] at hc
    simpa [mapLeaves, same] using
      ⟨same_mapLeaves h first hc.1.1, same_mapLeaves h second hc.1.2⟩
  | list separator items =>
    simpa [mapLeaves, same] using same_mapItems h items (by simpa [isClean] using hc)

theorem same_mapArguments {g k : Value → Value} (h : ∀ v, v.isLeaf → v.isClean → (g v).same (k v))
    (arguments : Option Value) (hc : argumentsAreClean arguments) :
    sameArguments (mapArguments g arguments) (mapArguments k arguments) := by
  match arguments with
  | some v => simpa [mapArguments, sameArguments] using same_mapLeaves h v hc
  | none => rfl

theorem same_mapItems {g k : Value → Value} (h : ∀ v, v.isLeaf → v.isClean → (g v).same (k v))
    (items : List Value) (hc : itemsAreClean items) :
    sameItems (mapItems g items) (mapItems k items) := by
  match items with
  | v :: vs =>
    simp only [itemsAreClean, Bool.and_eq_true] at hc
    simpa [mapItems, sameItems] using ⟨same_mapLeaves h v hc.1, same_mapItems h vs hc.2⟩
  | [] => rfl

end

theorem same_asRead (f : Format) (h : v.isClean) : (v.shorten f).same (v.asRead f) := by
  refine same_mapLeaves (fun u hl hc => ?_) v h
  cases u
  case size s =>
    obtain ⟨x, unit⟩ := s
    cases x
    case finite x => simp [shortenLeaf, readLeaf, same, Size.same, Number.same, x.same_asRead]
    all_goals cases hc
  case function | pair | list => cases hl
  all_goals simp [shortenLeaf, readLeaf, same]

mutual

theorem mapLeaves_eq_self {g : Value → Value} (h : ∀ v, g v = v) (v : Value) :
    v.mapLeaves g = v := by
  match v with
  | size s | keyword s | hex s | string s | url s => simp [mapLeaves, h]
  | function kind name (some v) => simp [mapLeaves, mapArguments, mapLeaves_eq_self h v]
  | function kind name none => rfl
  | pair first second =>
    simp [mapLeaves, mapLeaves_eq_self h first, mapLeaves_eq_self h second]
  | list separator items => simp [mapLeaves, mapItems_eq_self h items]

theorem mapItems_eq_self {g : Value → Value} (h : ∀ v, g v = v) (items : List Value) :
    mapItems g items = items := by
  match items with
  | v :: vs => simp [mapItems, mapLeaves_eq_self h v, mapItems_eq_self h vs]
  | [] => rfl

end

-- A format that does not halve colors keeps every value.
theorem shorten_eq_self (h : f.shortHex = false) (v : Value) : v.shorten f = v := by
  refine mapLeaves_eq_self (fun u => ?_) v
  cases u <;> simp [shortenLeaf, writtenDigits, h]

/-! ### Tokens -/

def wordToken (word : String) : Token :=
  match word.toList with
  | c :: cs =>
    if c == '#' && !cs.isEmpty then .hash (String.ofList cs)
    else if cs.isEmpty && isVerbatim word then single c
    else .identifier word
  | [] => .identifier word

-- A word that is read back, and the token that it is written as.
inductive CleanWord (word : String) : Prop
  | hash (cs : List Char) (hw : word.toList = '#' :: cs) (hn : cs ≠ [])
    (hc : ∀ c ∈ cs, isNameChar true c) (hx : isHexColor cs = false) (hv : isVerbatim word)
    (ht : wordToken word = .hash (String.ofList cs))
  | symbol (c : Char) (hw : word.toList = [c]) (hs : standsAlone c) (hv : isVerbatim word)
    (ht : wordToken word = single c)
  | name (hn : isName word.toList) (hv : isVerbatim word = false)
    (ht : wordToken word = .identifier word)

theorem CleanWord.of_isCleanWord {word : String} (h : isCleanWord word) : CleanWord word := by
  cases hw : word.toList
  case nil => simp [isCleanWord, hw] at h
  case cons c cs =>
    simp only [isCleanWord, hw] at h
    split at h
    case isTrue hc =>
      simp only [Bool.and_eq_true, beq_iff_eq, Bool.not_eq_true', List.isEmpty_eq_false_iff] at hc
      obtain ⟨rfl, hn⟩ := hc
      simp only [Bool.and_eq_true, List.all_eq_true, Bool.not_eq_true'] at h
      exact .hash cs hw hn h.1 h.2 (by simp [isVerbatim, hw]) (by simp [wordToken, hw, hn])
    case isFalse hc =>
      split at h
      case isTrue hv =>
        have ht : wordToken word = single c := by simp [wordToken, hw, hc, hv]
        simp only [Bool.and_eq_true, List.isEmpty_iff] at hv
        obtain ⟨rfl, hv⟩ := hv
        exact .symbol c hw h hv ht
      case isFalse hv =>
        have ht : wordToken word = .identifier word := by simp [wordToken, hw, hc, hv]
        refine .name (hw ▸ h) ?_ ht
        cases cs
        case nil => simpa using hv
        case cons => simpa [isVerbatim, hw] using hc

def leafToken (short : Bool) : Value → Token
  | size ⟨.finite x, unit⟩ => .number x.asRead unit (Number.finite x).css
  | keyword word => wordToken word
  | hex digits => .hash (writtenDigits short digits)
  | string content => .string content
  | url target => .url target
  | _ => .whitespace

def opener (name : String) : Token :=
  if name.isEmpty then .openParen else .function name

-- The tokens between the items of a list.
def between (f : Format) : Separator → List Token
  | .space => [.whitespace]
  | .comma => .comma :: blankTokens f.comma.toList.tail

mutual

-- The tokens of a value in a format.
def tokens (f : Format) : Value → List Token
  | function _ name arguments => opener name :: (argumentTokens f arguments ++ [.closeParen])
  | pair first second => first.tokens f ++ .slash :: second.tokens f
  | list separator items => itemTokens f separator items
  | v => [leafToken f.shortHex v]

def argumentTokens (f : Format) : Option Value → List Token
  | some v => v.tokens f
  | none => []

def itemTokens (f : Format) (separator : Separator) : List Value → List Token
  | [] => []
  | v :: vs =>
    v.tokens f ++ if vs.isEmpty then [] else between f separator ++ itemTokens f separator vs

end

theorem lower_eq_iff {s : String} : Text.lower s = s ↔ ∀ c ∈ s.toList, c.toLower = c := by
  rw [← String.toList_inj, Text.lower, String.toList_ofList]
  generalize s.toList = cs
  induction cs <;> simp_all

theorem halved?_eq {cs ds : List Char} (h : halved? cs = some ds) :
    cs.length = 2 * ds.length ∧ ∀ c ∈ ds, c ∈ cs := by
  fun_induction halved? cs generalizing ds
  case case1 =>
    cases h
    simp
  case case2 c d rest _ ih =>
    simp only [Option.map_eq_some_iff] at h
    obtain ⟨es, he, hc⟩ := h
    subst hc
    obtain ⟨hl, hm⟩ := ih he
    refine ⟨by simp [hl, Nat.mul_add], List.forall_mem_cons.mpr ⟨by simp, fun c hc => ?_⟩⟩
    simp [hm c hc]
  case case3 => cases h
  case case4 => cases h

-- A color stays one with half the digits.
theorem isHexColor_writtenDigits (short : Bool) {digits : String}
    (h : isHexColor digits.toList) (hl : Text.lower digits = digits) :
    isHexColor (writtenDigits short digits).toList ∧
      Text.lower (writtenDigits short digits) = writtenDigits short digits := by
  unfold writtenDigits
  split
  case isFalse => exact ⟨h, hl⟩
  case isTrue hs =>
    split
    case h_2 => exact ⟨h, hl⟩
    case h_1 ds hd =>
      obtain ⟨hlen, hm⟩ := halved?_eq hd
      simp only [Bool.and_eq_true, Bool.or_eq_true, beq_iff_eq] at hs
      simp only [isHexColor, Bool.and_eq_true, List.all_eq_true] at h
      rw [lower_eq_iff] at hl ⊢
      rw [String.toList_ofList]
      refine ⟨?_, fun c hc => hl c (hm c hc)⟩
      simp only [isHexColor, Bool.and_eq_true, List.all_eq_true]
      refine ⟨?_, fun c hc => h.2 c (hm c hc)⟩
      have : ds.length = 3 ∨ ds.length = 4 := by omega
      rcases this with hl | hl <;> simp [hl]

theorem ofHash_of_isHexColor {digits : String} (h : isHexColor digits.toList)
    (hl : Text.lower digits = digits) : ofHash digits = hex digits := by
  have hd : dropHash digits.toList = digits.toList := by
    unfold dropHash
    split
    case h_1 rest he =>
      simp only [isHexColor, he, Bool.and_eq_true, List.all_cons] at h
      exact absurd h.2.1 (by decide)
    case h_2 => rfl
  simp [ofHash, hex?, hd, h, hl]

theorem ofHash_of_name {c : Char} {cs : List Char} (hn : ∀ d ∈ c :: cs, isNameChar true d)
    (hx : isHexColor (c :: cs) = false) :
    ofHash (String.ofList (c :: cs)) = keyword (String.ofList ('#' :: c :: cs)) := by
  have hd : dropHash (c :: cs) = c :: cs := by
    unfold dropHash
    split
    case h_1 he =>
      cases he
      exact absurd (hn '#' List.mem_cons_self) (by decide)
    case h_2 => rfl
  simp [ofHash, hex?, hd, hx]

theorem leafItem_of_standsAlone {c : Char} {p : Position} (h : standsAlone c) :
    leafItem ⟨single c, p⟩ = .ok (some (.part (.value (keyword c.toString)))) := by
  simp only [standsAlone, Bool.and_eq_true, Bool.or_eq_true, beq_iff_eq] at h
  rcases h.2 with ht | ht
  · rw [ht]
    rfl
  · have hc : c = ':' := by
      unfold single at ht
      split at ht <;> first | rfl | cases ht
    subst hc
    rfl

theorem leafItem_wordToken {word : String} {p : Position} (h : isCleanWord word) :
    leafItem ⟨wordToken word, p⟩ = .ok (some (.part (.value (keyword word)))) := by
  cases CleanWord.of_isCleanWord h
  case hash cs hw hn hc hx _ ht =>
    obtain ⟨c, cs, hcs⟩ := List.exists_cons_of_ne_nil hn
    subst hcs
    have hw : String.ofList ('#' :: c :: cs) = word := by rw [← hw, String.ofList_toList]
    simp only [ht, leafItem, ofHash_of_name hc hx, hw]
  case symbol c hw hs _ ht =>
    have hw : String.singleton c = word := by
      rw [← String.toList_inj, hw, String.toList_singleton]
    simpa [ht, hw] using leafItem_of_standsAlone (p := p) hs
  case name ht => simp [ht, leafItem]

theorem spells_leaf {t : Placed} {short : Bool} (hl : v.isLeaf) (hs : hasShape level v)
    (hc : v.isClean) (ht : t.token = leafToken short v) :
    Spells [t] [.part (.value (readLeaf short v))] := by
  obtain ⟨token, p⟩ := t
  subst ht
  replace hs : v.isReadLeaf := by
    cases v
    case function | pair | list => cases hl
    all_goals simpa [hasShape] using hs
  suffices hi : leafItem ⟨leafToken short v, p⟩ =
      .ok (some (.part (.value (readLeaf short v)))) from Spells.leaf hi
  cases v
  case size s =>
    obtain ⟨x, unit⟩ := s
    cases x
    case finite x =>
      have hu : unit.map Text.lower = unit := by
        cases unit
        case none => rfl
        case some u => simpa [isReadLeaf] using hs
      simp [leafToken, leafItem, readLeaf, Size.ofParts, hu]
    all_goals cases hc
  case keyword word => exact leafItem_wordToken hc
  case hex digits =>
    simp only [isReadLeaf, Bool.and_eq_true, beq_iff_eq] at hs
    obtain ⟨hx, hl⟩ := isHexColor_writtenDigits short hs.1 hs.2
    simp [leafToken, leafItem, readLeaf, shortenLeaf, ofHash_of_isHexColor hx hl]
  case string | url => rfl
  case function | pair | list => cases hl

theorem isLeaf_tokens (h : v.isLeaf) : v.tokens f = [leafToken f.shortHex v] := by
  cases v
  case function | pair | list => cases h
  all_goals rfl

theorem length_mapItems {g : Value → Value} (items : List Value) :
    (mapItems g items).length = items.length := by
  induction items
  case nil => rfl
  case cons ih => simp [mapItems, ih]

theorem call_opener {name : String} {arguments : Option Value} :
    call (opener name) arguments = function (kindOf name) name arguments := by
  by_cases h : name.isEmpty
  · rw [opener, if_pos h, String.isEmpty_iff.mp h]
    rfl
  · rw [opener, if_neg h]
    rfl

theorem spells_call {name : String} {arguments : Option Value}
    (ht : ts.map Placed.token = opener name :: (argumentTokens f arguments ++ [.closeParen]))
    (ha : ∀ us, us.map Placed.token = argumentTokens f arguments → match arguments with
      | some v => SpellsAs .whole us (v.asRead f)
      | none => us = []) :
    Spells ts [.part (.value (function (kindOf name) name
      (mapArguments (readLeaf f.shortHex) arguments)))] := by
  rw [List.map_eq_cons_iff] at ht
  obtain ⟨t, us, hts, ho, hus⟩ := ht
  rw [List.map_eq_append_iff] at hus
  obtain ⟨inner, cs, hcs, hinner, hclose⟩ := hus
  rw [List.map_eq_singleton_iff] at hclose
  obtain ⟨closer, hclosers, hc⟩ := hclose
  have hopens : t.token.opensParen := by
    rw [ho, opener]
    split <;> rfl
  have ha := ha inner hinner
  subst hts hcs hclosers
  rw [← call_opener, ← ho]
  cases arguments
  case none =>
    obtain rfl : inner = [] := ha
    exact Spells.call hopens hc .nil (List.forall_mem_nil _)
  case some v =>
    obtain ⟨items, hs, hf⟩ := ha
    exact Spells.call hopens hc hs (hf closer.position)

theorem forall_of_blank (us : List Placed) (h : us.map Placed.token = between f .space) :
    ∀ u ∈ us, u.token = .whitespace := by
  rw [between, List.map_eq_singleton_iff] at h
  obtain ⟨u, hus, hu⟩ := h
  simp [hus, hu]

theorem forall_of_blankTokens {spacing : List Char} (us : List Placed)
    (h : us.map Placed.token = blankTokens spacing) : ∀ u ∈ us, u.token = .whitespace := by
  unfold blankTokens at h
  split at h
  · simp [List.map_eq_nil_iff.mp h]
  · exact forall_of_blank (f := {}) us h

theorem exists_of_comma (us : List Placed) (h : us.map Placed.token = between f .comma) :
    ∃ comma blanks, us = comma :: blanks ∧ comma.token = .comma ∧
      ∀ u ∈ blanks, u.token = .whitespace := by
  rw [between, List.map_eq_cons_iff] at h
  obtain ⟨comma, blanks, hus, hc, hb⟩ := h
  exact ⟨comma, blanks, hus, hc, forall_of_blankTokens blanks hb⟩

mutual

-- A clean value is spelled by its tokens.
theorem spellsAs_tokens {level : Level} {ts : List Placed} (v : Value) (hs : hasShape level v)
    (hc : v.isClean) (ht : ts.map Placed.token = v.tokens f) : SpellsAs level ts (v.asRead f) := by
  match v with
  | size s | keyword s | hex s | string s | url s =>
    rw [isLeaf_tokens rfl, List.map_eq_singleton_iff] at ht
    obtain ⟨t, hts, ht⟩ := ht
    rw [hts]
    exact SpellsAs.of_component (spells_leaf rfl hs hc ht)
  | function kind name arguments =>
    simp only [isClean, Bool.and_eq_true] at hc
    simp only [hasShape, Bool.and_eq_true, beq_iff_eq] at hs
    rw [hs.1, asRead, mapLeaves]
    refine SpellsAs.of_component (spells_call (f := f) (by simpa [tokens] using ht) ?_)
    intro us hus
    match arguments with
    | some v => exact spellsAs_tokens v hs.2 hc.2 hus
    | none => simpa [argumentTokens] using hus
  | pair first second =>
    simp only [isClean, Bool.and_eq_true] at hc
    obtain ⟨hlevel, hfirst, hsecond⟩ := hasShape_pair hs
    rw [tokens, List.map_eq_append_iff] at ht
    obtain ⟨us, vs, hts, hus, hvs⟩ := ht
    rw [List.map_eq_cons_iff] at hvs
    obtain ⟨slash, ws, hvs, hslash, hws⟩ := hvs
    subst hts hvs
    exact SpellsAs.of_word hlevel (spellsAs_pair (spellsAs_tokens first hfirst hc.1.1 hus)
      (spellsAs_tokens second hsecond hc.1.2 hws) hslash)
  | list .space items =>
    obtain ⟨hlevel, hlen, hitems⟩ : (level = .group ∨ level = .whole) ∧ 2 ≤ items.length ∧
        itemsHaveShape .word items := by
      cases level <;> simp_all [hasShape]
    have hn : items ≠ [] := List.ne_nil_of_length_pos (by omega)
    have hj : Joined .word (fun us => ∀ u ∈ us, u.token = .whitespace) ts _ :=
      joined_tokens .space forall_of_blank items hn hitems (by simpa [isClean] using hc) ht
    have hg := spellsAs_spaceList hj
    rw [asRead, mapLeaves, list_eq_join (by rwa [length_mapItems])]
    rcases hlevel with rfl | rfl
    · exact hg
    · exact hg.whole_of_group
  | list .comma items =>
    obtain ⟨hlevel, hlen, hitems⟩ : level = .whole ∧ 2 ≤ items.length ∧
        itemsHaveShape .group items := by
      cases level <;> simp_all [hasShape]
    have hn : items ≠ [] := List.ne_nil_of_length_pos (by omega)
    have hj := joined_tokens .comma exists_of_comma items hn hitems
      (by simpa [isClean] using hc) ht
    subst hlevel
    rw [asRead, mapLeaves, list_eq_join (by rwa [length_mapItems])]
    exact spellsAs_commaList hj

theorem joined_tokens {level : Level} (separator : Separator) {separates : List Placed → Prop}
    {ts : List Placed}
    (hb : ∀ us, us.map Placed.token = between f separator → separates us) (items : List Value)
    (hn : items ≠ []) (hs : itemsHaveShape level items) (hc : itemsAreClean items)
    (ht : ts.map Placed.token = itemTokens f separator items) :
    Joined level separates ts (mapItems (readLeaf f.shortHex) items) := by
  match items with
  | [] => contradiction
  | [v] =>
    simp only [itemsHaveShape, itemsAreClean, Bool.and_true] at hs hc
    exact .single (spellsAs_tokens v hs hc (by simpa [itemTokens] using ht))
  | v :: w :: items =>
    rw [itemsHaveShape, Bool.and_eq_true] at hs
    rw [itemsAreClean, Bool.and_eq_true] at hc
    rw [itemTokens, if_neg (by simp), List.map_eq_append_iff] at ht
    obtain ⟨us, ds, hts, hus, hds⟩ := ht
    rw [List.map_eq_append_iff] at hds
    obtain ⟨bs, ws, hds, hbs, hws⟩ := hds
    subst hts hds
    exact .more (spellsAs_tokens v hs.1 hc.1 hus) (hb bs hbs)
      (joined_tokens separator hb (w :: items) (by simp) hs.2 hc.2 hws)

end

end Value
end Stylesheet
