/-
Aether.Lib.Fuel — functions that run on fuel.

A function that need not return is one on fuel, `none` while it has not
returned. `Below` says that one run gives no other result than a second
one; a function is `Stable` when runs with less fuel are below those with
more, and `Returns` says which result enough fuel gives. The rules follow
the way such functions are put together.
-/
import Mathlib.Tactic.Common

namespace Aether.Lib.Fuel

variable {α β γ δ : Type}

/-! ## §1 One run below another -/

/-- When `x` has a result, `y` has it too. -/
structure Below (x y : Option α) : Prop where
  result : ∀ {a : α}, x = some a → y = some a

theorem Below.rfl {x : Option α} : Below x x := ⟨fun h => h⟩

theorem Below.none {y : Option α} : Below .none y := ⟨fun h => nomatch h⟩

theorem Below.bind {x y : Option α} {f g : α → Option β} (h : Below x y)
    (hfg : ∀ a, Below (f a) (g a)) : Below (x.bind f) (y.bind g) := by
  refine ⟨fun {b} hb => ?_⟩
  obtain ⟨a, ha, hfa⟩ := Option.bind_eq_some_iff.mp hb
  exact Option.bind_eq_some_iff.mpr ⟨a, h.result ha, (hfg a).result hfa⟩

theorem mapM_option_some (f : α → Option β) (a : α) :
    (some a).mapM f = (f a).bind fun b => some (some b) := by
  show some <$> f a = _
  cases f a <;> rfl

theorem Below.mapM_option {f g : α → Option β} (h : ∀ a, Below (f a) (g a)) (o : Option α) :
    Below (o.mapM f) (o.mapM g) := by
  cases o with
  | none => exact .rfl
  | some a =>
    rw [mapM_option_some, mapM_option_some]
    exact (h a).bind fun _ => .rfl

theorem Below.mapM_list {f g : α → Option β} (h : ∀ a, Below (f a) (g a)) (l : List α) :
    Below (l.mapM f) (l.mapM g) := by
  induction l with
  | nil => exact .rfl
  | cons a l ih =>
    rw [List.mapM_cons, List.mapM_cons]
    exact (h a).bind fun _ => ih.bind fun _ => .rfl

/-! ## §2 Stable functions -/

/-- More fuel does not change a result. -/
structure Stable (f : Nat → Option α) : Prop where
  below : ∀ {n m : Nat}, n ≤ m → Below (f n) (f m)

@[simp] theorem stable_const (x : Option α) : Stable fun _ => x := ⟨fun _ => .rfl⟩

theorem stable_of_succ {f : Nat → Option α} (h : ∀ n, Below (f n) (f (n + 1))) : Stable f := by
  refine ⟨fun {n m} hm => ?_⟩
  induction hm with
  | refl => exact .rfl
  | step _ ih => exact ⟨fun hn => (h _).result (ih.result hn)⟩

theorem Stable.bind {f : Nat → Option α} {g : Nat → α → Option β} (hf : Stable f)
    (hg : ∀ a, Stable fun n => g n a) : Stable fun n => (f n).bind (g n) :=
  ⟨fun h => (hf.below h).bind fun a => (hg a).below h⟩

/-- Two functions in a row, and what is made of their results. -/
theorem Stable.bind₂ {f : Nat → Option α} {g : Nat → Option β} (hf : Stable f) (hg : Stable g)
    (k : α → β → Option γ) : Stable fun n => (f n).bind fun a => (g n).bind (k a) :=
  hf.bind fun _ => hg.bind fun _ => stable_const _

theorem Stable.bind₃ {f : Nat → Option α} {g : Nat → Option β} {h : Nat → Option γ} (hf : Stable f)
    (hg : Stable g) (hh : Stable h) (k : α → β → γ → Option δ) :
    Stable fun n => (f n).bind fun a => (g n).bind fun b => (h n).bind (k a b) :=
  hf.bind fun _ => hg.bind₂ hh _

theorem Stable.mapM_option {f : Nat → α → Option β} (hf : ∀ a, Stable fun n => f n a)
    (o : Option α) : Stable fun n => o.mapM (f n) :=
  ⟨fun h => .mapM_option (fun a => (hf a).below h) o⟩

theorem Stable.mapM_list {f : Nat → α → Option β} (hf : ∀ a, Stable fun n => f n a) (l : List α) :
    Stable fun n => l.mapM (f n) :=
  ⟨fun h => .mapM_list (fun a => (hf a).below h) l⟩

/-! ## §3 What enough fuel gives -/

/-- With enough fuel the result is `a`. -/
def Returns (f : Nat → Option α) (a : α) : Prop := ∃ n, f n = some a

@[simp] theorem returns_const {x : Option α} {a : α} : Returns (fun _ => x) a ↔ x = some a := by
  simp [Returns]

theorem returns_bind {f : Nat → Option α} {g : Nat → α → Option β} {b : β} (hf : Stable f)
    (hg : ∀ a, Stable fun n => g n a) :
    Returns (fun n => (f n).bind (g n)) b ↔ ∃ a, Returns f a ∧ Returns (fun n => g n a) b := by
  constructor
  · rintro ⟨n, hn⟩
    obtain ⟨a, ha, hb⟩ := Option.bind_eq_some_iff.mp hn
    exact ⟨a, ⟨n, ha⟩, ⟨n, hb⟩⟩
  · rintro ⟨a, ⟨n, ha⟩, ⟨m, hb⟩⟩
    refine ⟨max n m, Option.bind_eq_some_iff.mpr ⟨a, ?_, ?_⟩⟩
    · exact (hf.below (Nat.le_max_left n m)).result ha
    · exact ((hg a).below (Nat.le_max_right n m)).result hb

/-- A stable function returns one result. -/
theorem Returns.unique {f : Nat → Option α} (hf : Stable f) {a b : α} (ha : Returns f a)
    (hb : Returns f b) : a = b := by
  obtain ⟨n, hn⟩ := ha
  obtain ⟨m, hm⟩ := hb
  have hn' := (hf.below (Nat.le_max_left n m)).result hn
  have hm' := (hf.below (Nat.le_max_right n m)).result hm
  exact Option.some.inj (hn'.symm.trans hm')

theorem returns_mapM_some {f : Nat → α → Option β} (hf : ∀ a, Stable fun n => f n a) (a : α)
    (o : Option β) : Returns (fun n => (some a).mapM (f n)) o ↔
      ∃ b, Returns (fun n => f n a) b ∧ some b = o := by
  simp only [mapM_option_some]
  refine (returns_bind (g := fun _ b => some (some b)) (hf a) fun _ => stable_const _).trans ?_
  simp

theorem returns_mapM_cons {f : Nat → α → Option β} (hf : ∀ a, Stable fun n => f n a) (a : α)
    (l : List α) (r : List β) : Returns (fun n => (a :: l).mapM (f n)) r ↔
      ∃ b, Returns (fun n => f n a) b ∧ ∃ bs, Returns (fun n => l.mapM (f n)) bs ∧ b :: bs = r := by
  have hl : ∀ b, Stable fun n => (l.mapM (f n)).bind fun bs => some (b :: bs) :=
    fun b => (Stable.mapM_list hf l).bind fun _ => stable_const _
  simp only [List.mapM_cons]
  refine (returns_bind (hf a) hl).trans ?_
  simp [returns_bind, Stable.mapM_list hf l]

/-- A function that returns nothing without fuel, one step further. -/
theorem returns_succ {f : Nat → Option α} {a : α} (h : f 0 = none) :
    Returns f a ↔ Returns (fun n => f (n + 1)) a := by
  constructor
  · rintro ⟨n, hn⟩
    cases n with
    | zero => rw [h] at hn; cases hn
    | succ n => exact ⟨n, hn⟩
  · rintro ⟨n, hn⟩
    exact ⟨n + 1, hn⟩

/-! ## §4 Runs that may end with an error -/

section Upto

variable {ε : Type} {gone : ε}

/-- `x` ran out of fuel, or it ends as `y` does. -/
def Upto (gone : ε) (x y : Except ε α) : Prop := x = .error gone ∨ x = y

theorem Upto.rfl {x : Except ε α} : Upto gone x x := .inr (Eq.refl x)

theorem Upto.out {y : Except ε α} : Upto gone (.error gone) y := .inl (Eq.refl _)

theorem Upto.trans {x y z : Except ε α} (h : Upto gone x y) (h' : Upto gone y z) : Upto gone x z := by
  cases h with
  | inl h => exact .inl h
  | inr h => exact h ▸ h'

theorem Upto.bind {x y : Except ε α} {f g : α → Except ε β} (h : Upto gone x y)
    (hfg : ∀ a, Upto gone (f a) (g a)) : Upto gone (x >>= f) (y >>= g) := by
  cases h with
  | inl h =>
    rw [h]
    exact .out
  | inr h =>
    rw [h]
    cases y with
    | ok a => exact hfg a
    | error e => exact .rfl

theorem Upto.bind_ok {x : Except ε α} {a : α} {f : α → Except ε β} {z : Except ε β}
    (h : Upto gone x (.ok a)) (hf : Upto gone (f a) z) : Upto gone (x >>= f) z := by
  cases h with
  | inl h =>
    rw [h]
    exact .out
  | inr h =>
    rw [h]
    exact hf

theorem Upto.ite {p : Prop} [Decidable p] {x x' y y' : Except ε α} (h : p → Upto gone x y)
    (h' : ¬ p → Upto gone x' y') : Upto gone (if p then x else x') (if p then y else y') := by
  by_cases hp : p
  · simpa only [if_pos hp] using h hp
  · simpa only [if_neg hp] using h' hp

end Upto

/-! ## §5 Runs that follow one another -/

section Follows

variable {ε γ δ : Type} {kept : ε → Prop} {R : α → β → Prop} {S : γ → δ → Prop}

/-- `y` ends as `x` does: with a value that `R` relates to that of `x`, or
with its error, if that is one of those that are kept. -/
def Follows (kept : ε → Prop) (R : α → β → Prop) (x : Except ε α) (y : Except ε β) : Prop :=
  match x with
  | .ok a => ∃ b, y = .ok b ∧ R a b
  | .error e => kept e → y = .error e

theorem Follows.ok {a : α} {b : β} (h : R a b) :
    Follows kept R (.ok a : Except ε α) (.ok b) := ⟨b, Eq.refl _, h⟩

theorem Follows.error {e : ε} {y : Except ε β} (h : ¬ kept e) :
    Follows kept R (.error e : Except ε α) y := fun he => absurd he h

theorem Follows.refl (x : Except ε α) : Follows kept Eq x x := by
  cases x with
  | ok a => exact .ok (Eq.refl a)
  | error e => exact fun _ => Eq.refl _

theorem Follows.trans {x y z : Except ε α} (h : Follows kept Eq x y) (h' : Follows kept Eq y z) :
    Follows kept Eq x z := by
  cases x with
  | ok a =>
    obtain ⟨b, rfl, hab⟩ := h
    exact hab ▸ h'
  | error e =>
    intro he
    rw [h he] at h'
    exact h' he

theorem Follows.bind {x : Except ε α} {y : Except ε β} {f : α → Except ε γ} {g : β → Except ε δ}
    (h : Follows kept R x y) (hfg : ∀ a b, R a b → Follows kept S (f a) (g b)) :
    Follows kept S (x >>= f) (y >>= g) := by
  cases x with
  | ok a =>
    obtain ⟨b, rfl, hab⟩ := h
    exact hfg a b hab
  | error e =>
    intro he
    rw [h he]
    rfl

theorem Follows.ite {p : Prop} [Decidable p] {x x' : Except ε α} {y y' : Except ε β}
    (h : p → Follows kept R x y) (h' : ¬ p → Follows kept R x' y') :
    Follows kept R (if p then x else x') (if p then y else y') := by
  by_cases hp : p
  · simpa only [if_pos hp] using h hp
  · simpa only [if_neg hp] using h' hp

/-- More fuel for the run that follows. -/
theorem Follows.upto {gone : ε} {x : Except ε α} {y y' : Except ε β} (h : Follows kept R x y)
    (hgone : ¬ kept gone) (hy : Upto gone y y') : Follows kept R x y' := by
  rcases hy with rfl | rfl
  · cases x with
    | ok a =>
      obtain ⟨b, hb, -⟩ := h
      cases hb
    | error e =>
      intro he
      obtain rfl := Except.error.inj (h he)
      exact absurd he hgone
  · exact h

/-- Less fuel for the run that is followed. -/
theorem Follows.after {gone : ε} {x x' : Except ε α} {y : Except ε β} (h : Follows kept R x' y)
    (hx : Upto gone x x') (hgone : ¬ kept gone) : Follows kept R x y := by
  rcases hx with rfl | rfl
  · exact .error hgone
  · exact h

end Follows

end Aether.Lib.Fuel
