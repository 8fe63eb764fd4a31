import Stylesheet.Proofs.Value.Shape
/-!
Equality of values. It is symmetric and transitive; every value that is read is equal to itself,
since only `nan` is not.
-/

namespace Stylesheet

namespace Number

theorem same_trans {x y z : Number} (h₁ : x.same y) (h₂ : y.same z) : x.same z := by
  cases x <;> cases y <;> simp only [same, reduceCtorEq] at h₁ <;> cases z <;>
    simp_all only [same, reduceCtorEq, beq_iff_eq]
  case finite.finite.finite x y z =>
    simp only [Double.same, Bool.or_eq_true, Bool.and_eq_true, beq_iff_eq] at *
    rcases h₁ with rfl | ⟨hx, hy⟩
    · exact h₂
    · rcases h₂ with rfl | ⟨_, hz⟩
      · exact .inr ⟨hx, hy⟩
      · exact .inr ⟨hx, hz⟩

theorem same_comm (x y : Number) : x.same y = y.same x := by
  cases x <;> cases y <;> simp only [same]
  case finite.finite x y =>
    simp only [Double.same]
    rw [Bool.and_comm, BEq.comm]
  case infinite.infinite m n => exact BEq.comm

end Number

theorem Size.same_trans {s t u : Size} (h₁ : s.same t) (h₂ : t.same u) : s.same u := by
  simp only [same, Bool.and_eq_true, beq_iff_eq] at *
  exact ⟨Number.same_trans h₁.1 h₂.1, h₁.2.trans h₂.2⟩

theorem Size.same_comm (s t : Size) : s.same t = t.same s := by
  simp only [same, Number.same_comm s.value, BEq.comm (a := s.unit)]

namespace Value

mutual

theorem same_trans {u v w : Value} (h₁ : u.same v) (h₂ : v.same w) : u.same w := by
  match u with
  | size _ =>
    cases v <;> simp only [same, reduceCtorEq] at h₁
    cases w <;> simp only [same, reduceCtorEq] at h₂
    simp only [same]
    exact Size.same_trans h₁ h₂
  | keyword _ | hex _ | string _ | url _ =>
    cases v <;> simp only [same, reduceCtorEq] at h₁ <;> cases w <;>
      simp_all only [same, reduceCtorEq, beq_iff_eq]
  | function _ _ _ =>
    cases v <;> simp only [same, reduceCtorEq] at h₁
    cases w <;> simp only [same, reduceCtorEq] at h₂
    simp only [same, Bool.and_eq_true, beq_iff_eq] at *
    exact ⟨⟨h₁.1.1.trans h₂.1.1, h₁.1.2.trans h₂.1.2⟩, sameArguments_trans h₁.2 h₂.2⟩
  | pair _ _ =>
    cases v <;> simp only [same, reduceCtorEq] at h₁
    cases w <;> simp only [same, reduceCtorEq] at h₂
    simp only [same, Bool.and_eq_true] at *
    exact ⟨same_trans h₁.1 h₂.1, same_trans h₁.2 h₂.2⟩
  | list _ _ =>
    cases v <;> simp only [same, reduceCtorEq] at h₁
    cases w <;> simp only [same, reduceCtorEq] at h₂
    simp only [same, Bool.and_eq_true, beq_iff_eq] at *
    exact ⟨h₁.1.trans h₂.1, sameItems_trans h₁.2 h₂.2⟩

theorem sameArguments_trans {a b c : Option Value} (h₁ : sameArguments a b)
    (h₂ : sameArguments b c) : sameArguments a c := by
  match a with
  | none =>
    cases b <;> simp only [sameArguments, reduceCtorEq] at h₁
    exact h₂
  | some _ =>
    cases b <;> simp only [sameArguments, reduceCtorEq] at h₁
    cases c <;> simp only [sameArguments, reduceCtorEq] at h₂
    exact same_trans h₁ h₂

theorem sameItems_trans {us vs ws : List Value} (h₁ : sameItems us vs) (h₂ : sameItems vs ws) :
    sameItems us ws := by
  match us with
  | [] =>
    cases vs <;> simp only [sameItems, reduceCtorEq] at h₁
    exact h₂
  | _ :: _ =>
    cases vs <;> simp only [sameItems, reduceCtorEq] at h₁
    cases ws <;> simp only [sameItems, reduceCtorEq] at h₂
    simp only [sameItems, Bool.and_eq_true] at *
    exact ⟨same_trans h₁.1 h₂.1, sameItems_trans h₁.2 h₂.2⟩

end

mutual

theorem same_comm (v w : Value) : v.same w = w.same v := by
  match v with
  | size _ =>
    cases w <;> simp only [same]
    exact Size.same_comm ..
  | keyword _ | hex _ | string _ | url _ =>
    cases w <;> simp only [same]
    exact BEq.comm
  | function kind name arguments =>
    cases w <;> simp only [same]
    rw [sameArguments_comm, BEq.comm (a := kind), BEq.comm (a := name)]
  | pair first second =>
    cases w <;> simp only [same]
    rw [same_comm first, same_comm second]
  | list separator items =>
    cases w <;> simp only [same]
    rw [sameItems_comm, BEq.comm (a := separator)]

theorem sameArguments_comm (a b : Option Value) : sameArguments a b = sameArguments b a := by
  match a with
  | none => cases b <;> rfl
  | some v =>
    cases b
    case none => rfl
    case some w => exact same_comm v w

theorem sameItems_comm (vs ws : List Value) : sameItems vs ws = sameItems ws vs := by
  match vs with
  | [] => cases ws <;> rfl
  | v :: vs =>
    cases ws
    case nil => rfl
    case cons w ws =>
      simp only [sameItems]
      rw [same_comm v, sameItems_comm vs]

end

theorem same_self_of_isReadLeaf {s : Size} (h : (size s).isReadLeaf) : (size s).same (size s) := by
  obtain ⟨value, unit⟩ := s
  cases value
  case finite => simp [same, Size.same, Number.same, Double.same]
  all_goals cases h

mutual

-- A value that is read is equal to itself.
theorem same_self_of_hasShape {level : Level} {v : Value} (h : hasShape level v) : v.same v := by
  match v with
  | size _ => exact same_self_of_isReadLeaf (by cases level <;> simpa only [hasShape] using h)
  | keyword _ | hex _ | string _ | url _ => simp [same]
  | function _ _ arguments =>
    have ha : argumentsHaveShape arguments := by cases level <;> simp_all [hasShape]
    simpa [same] using sameArguments_self ha
  | pair first second =>
    obtain ⟨hf, hs⟩ : hasShape .word first ∧ hasShape .component second := by
      cases level <;> simp_all [hasShape]
    simpa [same] using ⟨same_self_of_hasShape hf, same_self_of_hasShape hs⟩
  | list separator items =>
    obtain ⟨level, hi⟩ : ∃ level, itemsHaveShape level items := by
      cases level <;> cases separator <;> simp only [hasShape, Bool.and_eq_true, reduceCtorEq] at h
      all_goals exact ⟨_, h.2⟩
    simpa [same] using sameItems_self hi

theorem sameArguments_self {arguments : Option Value} (h : argumentsHaveShape arguments) :
    sameArguments arguments arguments := by
  match arguments with
  | none => rfl
  | some v => exact @same_self_of_hasShape .whole v (by simpa [argumentsHaveShape] using h)

theorem sameItems_self {level : Level} {vs : List Value} (h : itemsHaveShape level vs) :
    sameItems vs vs := by
  match vs with
  | [] => rfl
  | v :: vs =>
    simp only [itemsHaveShape, Bool.and_eq_true] at h
    simpa [sameItems] using ⟨same_self_of_hasShape h.1, sameItems_self h.2⟩

end

end Value
end Stylesheet
