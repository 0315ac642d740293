import Treewalk.Proofs.BigStep
import Mathlib.Data.List.Forall2

/-! Renaming a parameter `p` of a function literal to `q`. Inside the literal every `p` becomes `q`;
outside of it nothing changes. The trees of the two programs are related by where they stand,
outside or inside the literal, and the relation reads the same from either side, with `p` and `q`
exchanged. -/

namespace Treewalk

namespace Tree

variable {η : Type}

mutual

/-- Replaces every name. -/
def rename (ρ : String → String) : Tree η → Tree η
  | .ident x => .ident (ρ x)
  | .print e => .print (rename ρ e)
  | .binary token l r => .binary token (rename ρ l) (rename ρ r)
  | .cond c t e => .cond (rename ρ c) (rename ρ t) (rename ρ e)
  | .loop c b => .loop (rename ρ c) (rename ρ b)
  | .pair a b => .pair (rename ρ a) (rename ρ b)
  | .seq ts => .seq (renameAll ρ ts)
  | .block ts => .block (renameAll ρ ts)
  | .scopedBlock ts => .scopedBlock (renameAll ρ ts)
  | .declare x e => .declare (ρ x) (rename ρ e)
  | .assign x e => .assign (ρ x) (rename ρ e)
  | .function params b => .function (params.map ρ) (rename ρ b)
  | .call f args => .call (rename ρ f) (renameAll ρ args)
  | t => t

def renameAll (ρ : String → String) : List (Tree η) → List (Tree η)
  | [] => []
  | t :: ts => rename ρ t :: renameAll ρ ts

end

mutual

/-- The names that a tree mentions, as variables or as parameters. -/
def names : Tree η → List String
  | .ident x => [x]
  | .print e => names e
  | .binary _ x y | .loop x y | .pair x y => names x ++ names y
  | .cond c t e => names c ++ (names t ++ names e)
  | .seq ts | .block ts | .scopedBlock ts => allNames ts
  | .declare x e | .assign x e => x :: names e
  | .function params b => params ++ names b
  | .call f args => names f ++ allNames args
  | _ => []

def allNames : List (Tree η) → List String
  | [] => []
  | t :: ts => names t ++ allNames ts

end

mutual

/-- Puts a tree in all holes. -/
def plug (filling : Term) : Tree Unit → Term
  | .absent => .absent
  | .int n => .int n
  | .bool b => .bool b
  | .null => .null
  | .ident x => .ident x
  | .print e => .print (plug filling e)
  | .binary token l r => .binary token (plug filling l) (plug filling r)
  | .cond c t e => .cond (plug filling c) (plug filling t) (plug filling e)
  | .loop c b => .loop (plug filling c) (plug filling b)
  | .pair a b => .pair (plug filling a) (plug filling b)
  | .seq ts => .seq (plugAll filling ts)
  | .block ts => .block (plugAll filling ts)
  | .scopedBlock ts => .scopedBlock (plugAll filling ts)
  | .declare x e => .declare x (plug filling e)
  | .assign x e => .assign x (plug filling e)
  | .function params b => .function params (plug filling b)
  | .call f args => .call (plug filling f) (plugAll filling args)
  | .hole _ => filling

def plugAll (filling : Term) : List (Tree Unit) → List Term
  | [] => []
  | t :: ts => plug filling t :: plugAll filling ts

end

end Tree

/-! ### Names and trees that correspond -/

/-- The name `y` stands where the literal had `x`. -/
def Renames (p q x y : String) : Prop := (x = p ∧ y = q) ∨ (x ≠ p ∧ x ≠ q ∧ y = x)

/-- The name `y` stands where the program had `x`, inside or outside the literal. -/
def SameName (p q : String) : Bool → String → String → Prop
  | false => Eq
  | true => Renames p q

/-- Where a scope belongs: to code outside the literal, to a call of the literal, or to other code
inside it. -/
inductive Place where
  | outside
  | entry
  | inside

namespace Place

/-- Whether the code in a scope is part of the literal. -/
def inner : Place → Bool
  | outside => false
  | _ => true

/-- Whether scopes of a place lie in code outside or inside the literal. -/
inductive Within : Place → Bool → Prop where
  | outside : Within outside false
  | entry : Within entry false
  | inside : Within inside true

/-- The place of a block in code outside or inside the literal. -/
theorem exists_block (i : Bool) :
    ∃ place : Place, place.Within i ∧ place.inner = i ∧ place ≠ entry := by
  cases i with
  | false => exact ⟨outside, .outside, rfl, by simp⟩
  | true => exact ⟨inside, .inside, rfl, by simp⟩

end Place

/-- A call of a function that stands outside or inside the literal opens a scope of this place for
its parameters. -/
structure Opens (p q : String) (i : Bool) (place : Place) (ps ps' : List String) : Prop where
  within : place.Within i
  entry : place = .entry → p ∈ ps
  names : List.Forall₂ (SameName p q place.inner) ps ps'

/-- The trees are the same up to the renaming. The two lists of statements or arguments of a tree
are compared as sequences. -/
inductive Tree.Renamed (p q : String) : Bool → Term → Term → Prop where
  | absent {i} : Renamed p q i .absent .absent
  | int {i n} : Renamed p q i (.int n) (.int n)
  | bool {i b} : Renamed p q i (.bool b) (.bool b)
  | null {i} : Renamed p q i .null .null
  | ident {i x y} (name : SameName p q i x y) : Renamed p q i (.ident x) (.ident y)
  | print {i e e'} (operand : Renamed p q i e e') : Renamed p q i (.print e) (.print e')
  | binary {i token l r l' r'} (left : Renamed p q i l l') (right : Renamed p q i r r') :
      Renamed p q i (.binary token l r) (.binary token l' r')
  | cond {i c t e c' t' e'} (test : Renamed p q i c c') (yes : Renamed p q i t t')
      (no : Renamed p q i e e') : Renamed p q i (.cond c t e) (.cond c' t' e')
  | loop {i c b c' b'} (test : Renamed p q i c c') (body : Renamed p q i b b') :
      Renamed p q i (.loop c b) (.loop c' b')
  | pair {i a b a' b'} (first : Renamed p q i a a') (second : Renamed p q i b b') :
      Renamed p q i (.pair a b) (.pair a' b')
  | seqNil {i} : Renamed p q i (.seq []) (.seq [])
  | seqCons {i t ts t' ts'} (first : Renamed p q i t t')
      (rest : Renamed p q i (.seq ts) (.seq ts')) :
      Renamed p q i (.seq (t :: ts)) (.seq (t' :: ts'))
  | block {i ts ts'} (body : Renamed p q i (.seq ts) (.seq ts')) :
      Renamed p q i (.block ts) (.block ts')
  | scopedBlock {i ts ts'} (body : Renamed p q i (.seq ts) (.seq ts')) :
      Renamed p q i (.scopedBlock ts) (.scopedBlock ts')
  | declare {i x y e e'} (name : SameName p q i x y) (init : Renamed p q i e e') :
      Renamed p q i (.declare x e) (.declare y e')
  | assign {i x y e e'} (name : SameName p q i x y) (value : Renamed p q i e e') :
      Renamed p q i (.assign x e) (.assign y e')
  | function {i place ps ps' b b'} (params : Opens p q i place ps ps')
      (body : Renamed p q place.inner b b') : Renamed p q i (.function ps b) (.function ps' b')
  | call {i f f' args args'} (callee : Renamed p q i f f')
      (values : Renamed p q i (.seq args) (.seq args')) :
      Renamed p q i (.call f args) (.call f' args')

theorem Renames.symm {p q x y : String} (h : Renames p q x y) : Renames q p y x := by
  rcases h with ⟨rfl, rfl⟩ | ⟨hp, hq, rfl⟩
  · exact .inl ⟨rfl, rfl⟩
  · exact .inr ⟨hq, hp, rfl⟩

namespace SameName

variable {p q x y : String} {i : Bool}

theorem symm (h : SameName p q i x y) : SameName q p i y x := by
  cases i with
  | false => exact Eq.symm h
  | true => exact Renames.symm h

/-- From a scope to the code around it, names keep their correspondence, unless the scope belongs to
a call of the literal and the name is the parameter. -/
theorem outwards {place : Place} (h : SameName p q place.inner x y) (within : place.Within i)
    (notHere : place = .entry → x ≠ p) : SameName p q i x y := by
  cases within with
  | outside => exact h
  | inside => exact h
  | entry =>
    rcases h with ⟨hx, _⟩ | ⟨_, _, hy⟩
    · exact absurd hx (notHere rfl)
    · exact hy.symm

/-- A name stands for one name only, on either side. -/
theorem eq_iff {x' y' : String} (h : SameName p q i x y) (h' : SameName p q i x' y') :
    x' = x ↔ y' = y := by
  cases i with
  | false =>
    obtain rfl : x = y := h
    obtain rfl : x' = y' := h'
    rfl
  | true =>
    rcases h with ⟨rfl, rfl⟩ | ⟨hp, hq, rfl⟩
    · rcases h' with ⟨rfl, rfl⟩ | ⟨hp', hq', rfl⟩
      · simp
      · simp [hp', hq']
    · rcases h' with ⟨rfl, rfl⟩ | ⟨hp', hq', rfl⟩
      · simp [Ne.symm hp, Ne.symm hq]
      · rfl

end SameName

theorem Opens.symm {p q : String} {i : Bool} {place : Place} {ps ps' : List String}
    (h : Opens p q i place ps ps') : Opens q p i place ps' ps where
  within := h.within
  entry := by
    rintro rfl
    have hp := h.entry rfl
    have names := h.names
    clear h
    induction names with
    | nil => cases hp
    | @cons x y ps ps' hxy _ ih =>
      rcases hxy with ⟨_, rfl⟩ | ⟨hx, _⟩
      · exact List.mem_cons_self
      · exact List.mem_cons_of_mem _ (ih ((List.mem_cons.mp hp).resolve_left (Ne.symm hx)))
  names := h.names.flip.imp fun _ _ hxy => SameName.symm hxy

namespace Tree.Renamed

variable {p q : String} {i : Bool} {t t' u : Term}

theorem symm (h : Renamed p q i t t') : Renamed q p i t' t := by
  induction h with
  | absent => exact .absent
  | int => exact .int
  | bool => exact .bool
  | null => exact .null
  | ident name => exact .ident name.symm
  | print _ ih => exact .print ih
  | binary _ _ ihl ihr => exact .binary ihl ihr
  | cond _ _ _ ihc iht ihe => exact .cond ihc iht ihe
  | loop _ _ ihc ihb => exact .loop ihc ihb
  | pair _ _ iha ihb => exact .pair iha ihb
  | seqNil => exact .seqNil
  | seqCons _ _ iht ihts => exact .seqCons iht ihts
  | block _ ih => exact .block ih
  | scopedBlock _ ih => exact .scopedBlock ih
  | declare name _ ih => exact .declare name.symm ih
  | assign name _ ih => exact .assign name.symm ih
  | function params _ ih => exact .function params.symm ih
  | call _ _ ihf ih => exact .call ihf ih

theorem isPresent_eq (h : Renamed p q i t t') : t.isPresent = t'.isPresent := by
  induction h with
  | seqCons _ _ iht ihts =>
    simp only [isPresent, anyPresent] at ihts ⊢
    rw [iht, ihts]
  | block _ ih => exact ih
  | scopedBlock _ ih => exact ih
  | _ => rfl

theorem anyPresent_eq {ts ts' : List Term} (h : Renamed p q i (.seq ts) (.seq ts')) :
    anyPresent ts = anyPresent ts' := h.isPresent_eq

/-- The part that is evaluated first has its counterpart. -/
theorem operand? (h : Renamed p q i t t') (first : t.operand? = some u) :
    ∃ u', t'.operand? = some u' ∧ Renamed p q i u u' := by
  cases h with
  | print he | declare _ he | assign _ he =>
    obtain rfl := Option.some.inj first
    exact ⟨_, rfl, he⟩
  | cond hc _ _ | loop hc _ | pair hc _ | call hc _ =>
    obtain rfl := Option.some.inj first
    exact ⟨_, rfl, hc⟩
  | @binary _ token l r l' r' hl _ =>
    simp only [Tree.operand?] at first ⊢
    split at first
    next known =>
      obtain rfl := Option.some.inj first
      exact ⟨l', if_pos known, hl⟩
    next => cases first
  | _ => cases first

end Tree.Renamed

/-- Replaces `p` by `q`. -/
def replaced (p q x : String) : String := if x = p then q else x

theorem renames_replaced {p q x : String} (fresh : q ≠ x) : Renames p q x (replaced p q x) := by
  unfold replaced
  by_cases hx : x = p
  · rw [if_pos hx]
    exact .inl ⟨hx, rfl⟩
  · rw [if_neg hx]
    exact .inr ⟨hx, Ne.symm fresh, rfl⟩

theorem Renames.eq_replaced {p q x y : String} (h : Renames p q x y) : y = replaced p q x := by
  unfold replaced
  rcases h with ⟨rfl, rfl⟩ | ⟨hp, _, rfl⟩
  · rw [if_pos rfl]
  · rw [if_neg hp]

theorem forall₂_replaced {p q : String} {xs : List String} (fresh : q ∉ xs) :
    List.Forall₂ (Renames p q) xs (xs.map (replaced p q)) := by
  induction xs with
  | nil => exact .nil
  | cons x xs ih =>
    rw [List.mem_cons, not_or] at fresh
    exact .cons (renames_replaced fresh.1) (ih fresh.2)

namespace Tree

variable {p q : String}

mutual

/-- Code that does not mention `q` can be renamed. -/
theorem renamed_rename (t : Term) (fresh : q ∉ t.names) :
    Renamed p q true t (t.rename (replaced p q)) := by
  match t with
  | .absent => exact .absent
  | .int _ => exact .int
  | .bool _ => exact .bool
  | .null => exact .null
  | .ident x => exact .ident (renames_replaced (by simpa [names] using fresh))
  | .print e => exact .print (renamed_rename e fresh)
  | .binary token l r =>
    rw [names, List.mem_append, not_or] at fresh
    exact .binary (renamed_rename l fresh.1) (renamed_rename r fresh.2)
  | .cond c t e =>
    rw [names, List.mem_append, List.mem_append, not_or, not_or] at fresh
    exact .cond (renamed_rename c fresh.1) (renamed_rename t fresh.2.1)
      (renamed_rename e fresh.2.2)
  | .loop c b =>
    rw [names, List.mem_append, not_or] at fresh
    exact .loop (renamed_rename c fresh.1) (renamed_rename b fresh.2)
  | .pair a b =>
    rw [names, List.mem_append, not_or] at fresh
    exact .pair (renamed_rename a fresh.1) (renamed_rename b fresh.2)
  | .seq ts => exact renamed_renameAll ts fresh
  | .block ts => exact .block (renamed_renameAll ts fresh)
  | .scopedBlock ts => exact .scopedBlock (renamed_renameAll ts fresh)
  | .declare x e =>
    rw [names, List.mem_cons, not_or] at fresh
    exact .declare (renames_replaced fresh.1) (renamed_rename e fresh.2)
  | .assign x e =>
    rw [names, List.mem_cons, not_or] at fresh
    exact .assign (renames_replaced fresh.1) (renamed_rename e fresh.2)
  | .function params b =>
    rw [names, List.mem_append, not_or] at fresh
    exact .function ⟨.inside, (by simp), forall₂_replaced fresh.1⟩ (renamed_rename b fresh.2)
  | .call f args =>
    rw [names, List.mem_append, not_or] at fresh
    exact .call (renamed_rename f fresh.1) (renamed_renameAll args fresh.2)

theorem renamed_renameAll (ts : List Term) (fresh : q ∉ allNames ts) :
    Renamed p q true (.seq ts) (.seq (renameAll (replaced p q) ts)) := by
  match ts with
  | [] => exact .seqNil
  | t :: ts =>
    rw [allNames, List.mem_append, not_or] at fresh
    exact .seqCons (renamed_rename t fresh.1) (renamed_renameAll ts fresh.2)

end

theorem forall₂_eq (xs : List String) : List.Forall₂ (SameName p q false) xs xs :=
  List.forall₂_same.mpr fun _ _ => rfl

mutual

/-- The code around the literal stays as it is. -/
theorem renamed_plug {f f' : Term} (h : Renamed p q false f f') (t : Tree Unit) :
    Renamed p q false (plug f t) (plug f' t) := by
  match t with
  | .absent => exact .absent
  | .int _ => exact .int
  | .bool _ => exact .bool
  | .null => exact .null
  | .ident x => exact .ident rfl
  | .print e => exact .print (renamed_plug h e)
  | .binary token l r => exact .binary (renamed_plug h l) (renamed_plug h r)
  | .cond c t e => exact .cond (renamed_plug h c) (renamed_plug h t) (renamed_plug h e)
  | .loop c b => exact .loop (renamed_plug h c) (renamed_plug h b)
  | .pair a b => exact .pair (renamed_plug h a) (renamed_plug h b)
  | .seq ts => exact renamed_plugAll h ts
  | .block ts => exact .block (renamed_plugAll h ts)
  | .scopedBlock ts => exact .scopedBlock (renamed_plugAll h ts)
  | .declare x e => exact .declare rfl (renamed_plug h e)
  | .assign x e => exact .assign rfl (renamed_plug h e)
  | .function params b =>
    exact .function ⟨.outside, (by simp), forall₂_eq params⟩ (renamed_plug h b)
  | .call f args => exact .call (renamed_plug h f) (renamed_plugAll h args)
  | .hole _ => exact h

theorem renamed_plugAll {f f' : Term} (h : Renamed p q false f f') (ts : List (Tree Unit)) :
    Renamed p q false (.seq (plugAll f ts)) (.seq (plugAll f' ts)) := by
  match ts with
  | [] => exact .seqNil
  | t :: ts => exact .seqCons (renamed_plug h t) (renamed_plugAll h ts)

end

/-- A literal with the parameter `p`, and the literal with the parameter `q` in its place. -/
theorem renamed_literal {params : List String} {body : Term} (hp : p ∈ params)
    (fresh : q ∉ (Tree.function params body).names) :
    Renamed p q false (.function params body)
      (rename (replaced p q) (.function params body)) := by
  rw [names, List.mem_append, not_or] at fresh
  exact .function ⟨.entry, fun _ => hp, forall₂_replaced fresh.1⟩ (renamed_rename body fresh.2)

end Tree

end Treewalk
