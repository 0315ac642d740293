import Treewalk.EvalError
import Treewalk.Value

/-! Ways in which what two computations give can be related: options, values, results that may be
errors, and the outcomes of computations that need not end. -/

namespace Option.Rel

variable {α β : Type} {R S : α → β → Prop} {a : Option α} {b : Option β}

theorem of_eq {a b : Option α} (h : a = b) : Option.Rel Eq a b := by
  subst h
  cases a with
  | some x => exact .some rfl
  | none => exact .none

theorem imp (h : Option.Rel R a b) (hRS : ∀ a b, R a b → S a b) : Option.Rel S a b := by
  cases h with
  | some h => exact .some (hRS _ _ h)
  | none => exact .none

/-- As `imp`, but the left side is known to be there. -/
theorem imp_of_some (h : Option.Rel R a b) (hRS : ∀ x y, a = Option.some x → R x y → S x y) :
    Option.Rel S a b := by
  cases h with
  | some h => exact .some (hRS _ _ rfl h)
  | none => exact .none

theorem flip (h : Option.Rel R a b) : Option.Rel (fun b a => R a b) b a := by
  cases h with
  | some h => exact .some h
  | none => exact .none

theorem comp {γ : Type} {S : β → γ → Prop} {c : Option γ} (h : Option.Rel R a b)
    (h' : Option.Rel S b c) : Option.Rel (fun a c => ∃ b, R a b ∧ S b c) a c := by
  cases h with
  | some h =>
    cases h' with
    | some h' => exact .some ⟨_, h, h'⟩
  | none =>
    cases h'
    exact .none

/-- The second choices matter only where there is no first one. -/
theorem or {a' : Option α} {b' : Option β} (h : Option.Rel R a b)
    (h' : a.isSome = false → Option.Rel R a' b') : Option.Rel R (a.or a') (b.or b') := by
  cases h with
  | some h => exact .some h
  | none => exact h' rfl

theorem bind {γ δ : Type} {S : γ → δ → Prop} {f : α → Option γ} {g : β → Option δ}
    (h : Option.Rel R a b) (hfg : ∀ x y, R x y → Option.Rel S (f x) (g y)) :
    Option.Rel S (a.bind f) (b.bind g) := by
  cases h with
  | some h => exact hfg _ _ h
  | none => exact .none

theorem isSome_eq (h : Option.Rel R a b) : a.isSome = b.isSome := by
  cases h <;> rfl

theorem exists_of_some {x : α} (h : Option.Rel R (Option.some x) b) :
    ∃ y, b = Option.some y ∧ R x y := by
  cases h with
  | some h => exact ⟨_, rfl, h⟩

end Option.Rel

namespace Treewalk

/-- Values that are equal, or closures with `C`. -/
inductive Value.Alike (C : Closure → Closure → Prop) : Value → Value → Prop where
  | int {n : Int64} : Alike C (.int n) (.int n)
  | bool {b : Bool} : Alike C (.bool b) (.bool b)
  | null : Alike C .null .null
  | closure {c₁ c₂ : Closure} (h : C c₁ c₂) : Alike C (.closure c₁) (.closure c₂)

namespace Value.Alike

variable {C C' : Closure → Closure → Prop} {v v₁ v₂ : Value}

theorem mono (h : Alike C v₁ v₂) (hC : ∀ c₁ c₂, C c₁ c₂ → C' c₁ c₂) : Alike C' v₁ v₂ := by
  cases h with
  | int => exact .int
  | bool => exact .bool
  | null => exact .null
  | closure h => exact .closure (hC _ _ h)

theorem of_data (h : v.closure? = none) : Alike C v v := by
  cases v with
  | int n => exact .int
  | bool b => exact .bool
  | null => exact .null
  | closure c => cases h

theorem getD {o₁ o₂ : Option Value} (h : Option.Rel (Alike C) o₁ o₂) :
    Alike C (o₁.getD .null) (o₂.getD .null) := by
  cases h with
  | some h => exact h
  | none => exact .null

end Value.Alike

/-- Two computations without effects fail for one cause, or succeed with related results. -/
inductive ExceptAlike {α β : Type} (R : α → β → Prop) :
    Except EvalError α → Except EvalError β → Prop where
  | ok {a : α} {b : β} (h : R a b) : ExceptAlike R (.ok a) (.ok b)
  | error {c : EvalError} : ExceptAlike R (.error c) (.error c)

/-- Two computations, given by the outcomes in which they end, end alike with respect to `R`. -/
structure EndAlike {α β : Type} (R : α → β → Prop) (left : α → Prop) (right : β → Prop) : Prop where
  forth : ∀ a, left a → ∃ b, right b ∧ R a b
  back : ∀ b, right b → ∃ a, left a ∧ R a b

namespace EndAlike

variable {α β γ : Type} {R R' : α → β → Prop} {S : β → γ → Prop} {left : α → Prop}
  {mid right : β → Prop} {last : γ → Prop}

theorem symm (h : EndAlike R left right) : EndAlike (fun b a => R a b) right left :=
  ⟨h.back, h.forth⟩

theorem mono (h : EndAlike R left right) (hR : ∀ a b, R a b → R' a b) : EndAlike R' left right := by
  refine ⟨fun a ha => ?_, fun b hb => ?_⟩
  · obtain ⟨b, hb, hab⟩ := h.forth a ha
    exact ⟨b, hb, hR a b hab⟩
  · obtain ⟨a, ha, hab⟩ := h.back b hb
    exact ⟨a, ha, hR a b hab⟩

theorem congr {left' : α → Prop} {right' : β → Prop} (h : EndAlike R left right)
    (hleft : ∀ a, left' a ↔ left a) (hright : ∀ b, right' b ↔ right b) :
    EndAlike R left' right' := by
  refine ⟨fun a ha => ?_, fun b hb => ?_⟩
  · obtain ⟨b, hb, hab⟩ := h.forth a ((hleft a).mp ha)
    exact ⟨b, (hright b).mpr hb, hab⟩
  · obtain ⟨a, ha, hab⟩ := h.back b ((hright b).mp hb)
    exact ⟨a, (hleft a).mpr ha, hab⟩

theorem trans (h : EndAlike R left mid) (h' : EndAlike S mid last) :
    EndAlike (fun a c => ∃ b, R a b ∧ S b c) left last := by
  refine ⟨fun a ha => ?_, fun c hc => ?_⟩
  · obtain ⟨b, hb, hab⟩ := h.forth a ha
    obtain ⟨c, hc, hbc⟩ := h'.forth b hb
    exact ⟨c, hc, b, hab, hbc⟩
  · obtain ⟨b, hb, hbc⟩ := h'.back c hc
    obtain ⟨a, ha, hab⟩ := h.back b hb
    exact ⟨a, ha, b, hab, hbc⟩

end EndAlike

end Treewalk
