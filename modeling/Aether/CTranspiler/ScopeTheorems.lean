/-
Aether.CTranspiler.ScopeTheorems — the identifiers of the C text and the
names of the language.

`Rel` relates the three readings of a function, `cScan`, `scan` and `check`,
and `Sim` says that three steps keep them related. The rules for `Sim` follow
the operations of the readings, and `stmt_sim` puts them together for the
statements that `c_stmt.c` writes.
-/
import Aether.CTranspiler.ScopeCheck

namespace Aether.CTranspiler

open Aether.Semantic (patternNames paramName)

/-! ## §1 Names in scope -/

section

variable {β : Type}

theorem lookup_self (name : Bytes) (b : β) (env : List (Bytes × β)) :
    ((name, b) :: env).lookup name = some b := List.lookup_cons_self

theorem lookup_of_ne {name x : Bytes} (hne : x ≠ name) (b : β) (env : List (Bytes × β)) :
    ((name, b) :: env).lookup x = env.lookup x := by
  rw [List.lookup_cons, beq_false_of_ne hne]

end

/-- The target is a variable that is declared by now. -/
def CScan.Known (c : CScan) : Target → Prop
  | .program i => i < c.next
  | .own i => i < c.nextOwn

/-- The occurrences refer to the same variables. -/
def Agree (found : List (Option Target)) (meant : List (Option Nat)) : Prop :=
  found = meant.map (·.map .program)

theorem agree_append {found : List (Option Target)} {meant : List (Option Nat)}
    {target : Option Target} {i : Option Nat} :
    Agree (found ++ [target]) (meant ++ [i]) ↔ Agree found meant ∧ target = i.map .program := by
  unfold Agree
  rw [List.map_append, List.map_singleton, ← List.concat_eq_append, ← List.concat_eq_append,
    List.concat_inj]

structure Rel (c : CScan) (a : Scan) (k : Check) : Prop where
  next : c.next = a.next
  stale : ∀ x, x ∉ k.stale ↔ c.env.lookup x = (a.env.lookup x).map .program
  block : c.block = k.names ++ k.before
  known : ∀ {x t}, c.env.lookup x = some t → c.Known t
  declared : ∀ {x i}, a.env.lookup x = some i → i < a.next
  inj : ∀ {x y t}, c.env.lookup x = some t → c.env.lookup y = some t → x = y
  named : ∀ {x y i}, a.env.lookup x = some i → c.env.lookup y = some (.program i) → x = y
  released : ∀ {t}, t ∈ c.released → c.Known t
  uses : Agree c.found a.found ↔ k.uses = true
  drops : Agree c.drops a.drops ↔ k.drops = true
  once : c.twice = false ↔ k.once = true
  safe : k.safe = true → c.late = false ∧
    ∀ {x t}, c.env.lookup x = some t → t ∈ c.released → x ∈ k.gone

/-- What changes while a C block is read: variables are declared. -/
structure Extends (c : CScan) (k : Check) (c' : CScan) (k' : Check) : Prop where
  known : ∀ {t}, c.Known t → c'.Known t
  before : k'.before = k.before
  names : ∃ new, k'.names = new ++ k.names ∧ (∀ x ∉ new, c'.env.lookup x = c.env.lookup x) ∧
    ∀ x ∈ new, ∃ t, c'.env.lookup x = some t ∧ ¬ c.Known t
  safe : k'.safe = true → k.safe = true

theorem Extends.refl (c : CScan) (k : Check) : Extends c k c k where
  known := id
  before := rfl
  names := ⟨[], rfl, fun _ _ => rfl, fun _ hx => absurd hx List.not_mem_nil⟩
  safe := id

theorem Extends.trans {c c' c'' : CScan} {k k' k'' : Check} (h : Extends c k c' k')
    (h' : Extends c' k' c'' k'') : Extends c k c'' k'' where
  known ht := h'.known (h.known ht)
  before := h'.before.trans h.before
  names := by
    obtain ⟨new, hnew, hsame, hfresh⟩ := h.names
    obtain ⟨new', hnew', hsame', hfresh'⟩ := h'.names
    refine ⟨new' ++ new, by rw [hnew', hnew, List.append_assoc], ?_, ?_⟩
    · intro x hx
      rw [List.mem_append, not_or] at hx
      rw [hsame' x hx.1, hsame x hx.2]
    · intro x hx
      by_cases hx' : x ∈ new'
      · obtain ⟨t, ht, hunknown⟩ := hfresh' x hx'
        exact ⟨t, ht, fun hknown => hunknown (h.known hknown)⟩
      · obtain ⟨t, ht, hunknown⟩ := hfresh x ((List.mem_append.mp hx).resolve_left hx')
        exact ⟨t, (hsame' x hx').trans ht, hunknown⟩
  safe hsafe := h.safe (h'.safe hsafe)

/-- No variable is declared. -/
theorem Extends.of_eq {c c' : CScan} {k k' : Check} (hknown : ∀ {t}, c.Known t → c'.Known t)
    (henv : c'.env = c.env) (hbefore : k'.before = k.before) (hnames : k'.names = k.names)
    (hsafe : k'.safe = true → k.safe = true) : Extends c k c' k' where
  known := hknown
  before := hbefore
  names := ⟨[], hnames, fun x _ => by rw [henv], fun _ hx => absurd hx List.not_mem_nil⟩
  safe := hsafe

/-! ## §2 Steps -/

/-- The steps keep the readings related. -/
structure Sim (f : CScan → CScan) (g : Scan → Scan) (h : Check → Check) : Prop where
  step : ∀ {c a k}, Rel c a k → Rel (f c) (g a) (h k) ∧ Extends c k (f c) (h k)

theorem Sim.skip : Sim id id id := ⟨fun hrel => ⟨hrel, Extends.refl _ _⟩⟩

theorem Sim.comp {f f' : CScan → CScan} {g g' : Scan → Scan} {h h' : Check → Check}
    (hs : Sim f g h) (hs' : Sim f' g' h') :
    Sim (fun c => f' (f c)) (fun a => g' (g a)) (fun k => h' (h k)) where
  step hrel := by
    obtain ⟨hrel₁, hext₁⟩ := hs.step hrel
    obtain ⟨hrel₂, hext₂⟩ := hs'.step hrel₁
    exact ⟨hrel₂, hext₁.trans hext₂⟩

theorem Rel.use {c : CScan} {a : Scan} {k : Check} (hrel : Rel c a k) (name : Bytes) :
    Rel (c.use name) (a.use name) (k.use name) where
  next := hrel.next
  stale := hrel.stale
  block := hrel.block
  known := hrel.known
  declared := hrel.declared
  inj := hrel.inj
  named := hrel.named
  released := hrel.released
  uses := by
    refine agree_append.trans ?_
    rw [hrel.uses, ← hrel.stale name]
    simp [Check.use]
  drops := hrel.drops
  once := hrel.once
  safe := by
    intro hsafe
    simp only [Check.use, Bool.and_eq_true, Bool.not_eq_true', List.contains_eq_mem,
      decide_eq_false_iff_not] at hsafe
    obtain ⟨hlate, hgone⟩ := hrel.safe hsafe.1
    refine ⟨?_, hgone⟩
    simp only [CScan.use, hlate, Bool.false_or, CScan.refersToReleased]
    split
    · next t ht =>
      simp only [List.contains_eq_mem, decide_eq_false_iff_not]
      exact fun hmem => hsafe.2 (hgone ht hmem)
    · rfl

theorem Sim.use (name : Bytes) : Sim (CScan.use name) (Scan.use name) (Check.use name) where
  step hrel := by
    refine ⟨hrel.use name, Extends.of_eq (fun ht => ht) rfl rfl rfl fun hsafe => ?_⟩
    exact (Bool.and_eq_true _ _ ▸ hsafe).1

theorem Sim.uses : (names : List Bytes) →
    Sim (CScan.uses names) (Scan.uses names) (Check.mentions names)
  | [] => Sim.skip
  | name :: names => (Sim.use name).comp (Sim.uses names)

theorem Sim.labels (n : Nat) : Sim id id (Check.labels n) where
  step hrel := ⟨⟨hrel.next, hrel.stale, hrel.block, hrel.known, hrel.declared, hrel.inj,
    hrel.named, hrel.released, hrel.uses, hrel.drops, hrel.once, hrel.safe⟩,
    Extends.of_eq (fun ht => ht) rfl rfl rfl (fun hsafe => hsafe)⟩

theorem Sim.unprinted (name : Bytes) :
    Sim CScan.unprinted (Scan.declare name) (Check.hide name) where
  step {c a k} hrel := by
    have hknown : ∀ {t}, c.Known t → c.unprinted.Known t := by
      intro t ht
      cases t with
      | program i => exact Nat.lt_succ_of_lt ht
      | own i => exact ht
    refine ⟨⟨congrArg (· + 1) hrel.next, ?_, hrel.block, fun h => hknown (hrel.known h), ?_,
      hrel.inj, ?_, fun h => hknown (hrel.released h), hrel.uses, hrel.drops, hrel.once, hrel.safe⟩,
      Extends.of_eq hknown rfl rfl rfl (fun hsafe => hsafe)⟩
    · intro x
      by_cases hx : x = name
      · subst hx
        -- the new variable has no declaration that C could see
        simp only [Check.hide, List.mem_cons, true_or, not_true_eq_false, false_iff, Scan.declare,
          lookup_self, Option.map_some]
        intro hsees
        have hlt : c.Known (.program a.next) := hrel.known hsees
        exact absurd (hrel.next ▸ hlt : a.next < a.next) (Nat.lt_irrefl _)
      · simp only [Check.hide, List.mem_cons, hx, false_or, Scan.declare, lookup_of_ne hx]
        exact hrel.stale x
    · intro x i hi
      by_cases hx : x = name
      · subst hx
        rw [Scan.declare, lookup_self] at hi
        exact Option.some.inj hi ▸ Nat.lt_succ_self _
      · rw [Scan.declare, lookup_of_ne hx] at hi
        exact Nat.lt_succ_of_lt (hrel.declared hi)
    · intro x y i hi hy
      by_cases hx : x = name
      · subst hx
        rw [Scan.declare, lookup_self, Option.some.injEq] at hi
        have hlt : i < c.next := hrel.known hy
        have hnext := hrel.next
        omega
      · rw [Scan.declare, lookup_of_ne hx] at hi
        exact hrel.named hi hy

section

variable {c : CScan} {a a' : Scan} {k : Check} {name : Bytes} {target : Target} {n m : Nat}

/-- The variable that is declared last hides the others of its name. -/
def CScan.bindAs (name : Bytes) (target : Target) (n m : Nat) (c : CScan) : CScan :=
  { c.bind name target with next := n, nextOwn := m }

theorem Extends.bind (hn : c.next ≤ n) (hm : c.nextOwn ≤ m) (hunknown : ¬ c.Known target)
    (stale : List Bytes) :
    Extends c k (c.bindAs name target n m) { k.bind name with stale := stale } where
  known {t} ht := by
    cases t with
    | program i => exact Nat.lt_of_lt_of_le ht hn
    | own i => exact Nat.lt_of_lt_of_le ht hm
  before := rfl
  names := by
    refine ⟨[name], rfl, ?_, ?_⟩
    · intro x hx
      exact lookup_of_ne (fun heq => hx (List.mem_singleton.mpr heq)) _ _
    · intro x hx
      rw [List.mem_singleton] at hx
      subst hx
      exact ⟨target, lookup_self _ _ _, hunknown⟩
  safe hsafe := hsafe

/-- Declaring a variable, up to what the language knows of it. -/
theorem Rel.bind (hrel : Rel c a k) (hn : c.next ≤ n) (hm : c.nextOwn ≤ m)
    (hunknown : ¬ c.Known target) (hknown : (c.bindAs name target n m).Known target)
    {stale : List Bytes} (hnext : n = a'.next)
    (hstale : ∀ x, x ∉ stale ↔
      (c.bindAs name target n m).env.lookup x = (a'.env.lookup x).map .program)
    (hdeclared : ∀ {x i}, a'.env.lookup x = some i → i < a'.next)
    (hnamed : ∀ {x y i}, a'.env.lookup x = some i →
      (c.bindAs name target n m).env.lookup y = some (.program i) → x = y) (hfound : a'.found = a.found)
    (hdrops : a'.drops = a.drops) :
    Rel (c.bindAs name target n m) a' { k.bind name with stale := stale } where
  next := hnext
  stale := hstale
  block := congrArg (name :: ·) hrel.block
  known {x t} ht := by
    by_cases hx : x = name
    · subst hx
      rw [CScan.bindAs, CScan.bind, lookup_self] at ht
      exact Option.some.inj ht ▸ hknown
    · rw [CScan.bindAs, CScan.bind, lookup_of_ne hx] at ht
      exact (@Extends.bind c k name target n m hn hm hunknown stale).known (hrel.known ht)
  declared := hdeclared
  inj {x y t} hx hy := by
    simp only [CScan.bindAs, CScan.bind] at hx hy
    by_cases hxn : x = name
    · by_cases hyn : y = name
      · rw [hxn, hyn]
      · rw [hxn, lookup_self] at hx
        rw [lookup_of_ne hyn, ← hx] at hy
        exact absurd (hrel.known hy) hunknown
    · rw [lookup_of_ne hxn] at hx
      by_cases hyn : y = name
      · rw [hyn, lookup_self, ← hx] at hy
        exact absurd (hrel.known (hx.trans (hx.symm.trans hy.symm))) hunknown
      · rw [lookup_of_ne hyn] at hy
        exact hrel.inj hx hy
  named := hnamed
  released ht := (@Extends.bind c k name target n m hn hm hunknown stale).known (hrel.released ht)
  uses := by
    rw [hfound]
    exact hrel.uses
  drops := by
    rw [hdrops]
    exact hrel.drops
  once := by
    simp only [CScan.bindAs, CScan.bind, Check.bind, Bool.or_eq_false_iff, Bool.and_eq_true,
      Bool.not_eq_true', hrel.once, hrel.block]
  safe hsafe := by
    obtain ⟨hlate, hgone⟩ := hrel.safe hsafe
    refine ⟨hlate, ?_⟩
    intro x t ht hreleased
    by_cases hx : x = name
    · subst hx
      rw [CScan.bindAs, CScan.bind, lookup_self] at ht
      exact absurd (hrel.released (Option.some.inj ht ▸ hreleased)) hunknown
    · rw [CScan.bindAs, CScan.bind, lookup_of_ne hx] at ht
      simp only [Check.bind, List.mem_filter, bne_iff_ne, ne_eq, hx, not_false_eq_true, and_true]
      exact hgone ht hreleased

end

theorem Sim.declare (name : Bytes) :
    Sim (CScan.declare name) (Scan.declare name) (Check.declare name) where
  step {c a k} hrel := by
    have hunknown : ¬ c.Known (.program c.next) := Nat.lt_irrefl c.next
    have hbind : c.declare name = c.bindAs name (.program c.next) (c.next + 1) c.nextOwn := rfl
    rw [hbind]
    refine ⟨hrel.bind (Nat.le_succ _) (Nat.le_refl _) hunknown (Nat.lt_succ_self _)
      (congrArg (· + 1) hrel.next) ?_ ?_ ?_ rfl rfl, Extends.bind (Nat.le_succ _) (Nat.le_refl _)
      hunknown _⟩
    · intro x
      simp only [List.mem_filter, bne_iff_ne, ne_eq, CScan.bindAs, CScan.bind, Scan.declare]
      by_cases hx : x = name
      · subst hx
        simp [hrel.next]
      · simp only [lookup_of_ne hx, hx, not_false_eq_true, and_true]
        exact hrel.stale x
    · intro x i hi
      by_cases hx : x = name
      · subst hx
        rw [Scan.declare, lookup_self] at hi
        exact Option.some.inj hi ▸ Nat.lt_succ_self _
      · rw [Scan.declare, lookup_of_ne hx] at hi
        exact Nat.lt_succ_of_lt (hrel.declared hi)
    · intro x y i hi hy
      simp only [Scan.declare, CScan.bindAs, CScan.bind] at hi hy
      by_cases hx : x = name
      · by_cases hyn : y = name
        · rw [hx, hyn]
        · rw [hx, lookup_self, Option.some.injEq] at hi
          rw [lookup_of_ne hyn] at hy
          have hlt : i < c.next := hrel.known hy
          have hnext := hrel.next
          omega
      · rw [lookup_of_ne hx] at hi
        by_cases hyn : y = name
        · rw [hyn, lookup_self, Option.some.injEq, Target.program.injEq] at hy
          exact absurd (hrel.declared hi) (hy ▸ hrel.next ▸ Nat.lt_irrefl _)
        · rw [lookup_of_ne hyn] at hy
          exact hrel.named hi hy

theorem Sim.declareOwn (name : Bytes) :
    Sim (CScan.declareOwn name) id (Check.declareOwn name) where
  step {c a k} hrel := by
    have hunknown : ¬ c.Known (.own c.nextOwn) := Nat.lt_irrefl c.nextOwn
    have hbind : c.declareOwn name = c.bindAs name (.own c.nextOwn) c.next (c.nextOwn + 1) := rfl
    rw [hbind]
    refine ⟨hrel.bind (Nat.le_refl _) (Nat.le_succ _) hunknown (Nat.lt_succ_self _) hrel.next ?_
      hrel.declared ?_ rfl rfl, Extends.bind (Nat.le_refl _) (Nat.le_succ _) hunknown _⟩
    · intro x
      simp only [List.mem_cons, CScan.bindAs, CScan.bind, id_eq]
      by_cases hx : x = name
      · subst hx
        rw [lookup_self]
        cases a.env.lookup x with
        | none => simp
        | some i => simp
      · simp only [lookup_of_ne hx, hx, false_or]
        exact hrel.stale x
    · intro x y i hi hy
      simp only [CScan.bindAs, CScan.bind] at hy
      by_cases hyn : y = name
      · rw [hyn, lookup_self] at hy
        simp at hy
      · rw [lookup_of_ne hyn] at hy
        exact hrel.named hi hy

/-- An identifier in the initialiser of `v`, before `v` is declared. -/
def CScan.useInit (v name : Bytes) (c : CScan) : CScan :=
  if name = v then { c with found := c.found ++ [some (.program c.next)] } else c.use name

theorem Sim.useInit (v name : Bytes) :
    Sim (CScan.useInit v name) (Scan.use name) (Check.useInit v name) where
  step {c a k} hrel := by
    unfold CScan.useInit Check.useInit
    split
    · next hname =>
      -- C sees the variable that is being declared, the language an earlier one
      have hother : some (Target.program c.next) ≠ (a.env.lookup name).map .program := by
        intro heq
        cases hsees : a.env.lookup name with
        | none => simp [hsees] at heq
        | some i =>
          rw [hsees, Option.map_some, Option.some.injEq, Target.program.injEq] at heq
          exact absurd (hrel.declared hsees) (heq ▸ hrel.next ▸ Nat.lt_irrefl _)
      refine ⟨⟨hrel.next, hrel.stale, hrel.block, hrel.known, hrel.declared, hrel.inj,
        hrel.named, hrel.released, ?_, hrel.drops, hrel.once, hrel.safe⟩,
        Extends.of_eq (fun ht => ht) rfl rfl rfl (fun hsafe => hsafe)⟩
      refine agree_append.trans ?_
      simp [hother]
    · exact (Sim.use name).step hrel

theorem declare_use {c : CScan} {v name : Bytes} (hreleased : ∀ {t}, t ∈ c.released → c.Known t) :
    (c.declare v).use name = (c.useInit v name).declare v := by
  unfold CScan.useInit
  by_cases hname : name = v
  · subst hname
    have hfresh : c.released.contains (.program c.next) = false := by
      rw [List.contains_eq_mem, decide_eq_false_iff_not]
      exact fun hmem => Nat.lt_irrefl c.next (hreleased hmem)
    rw [if_pos rfl]
    simp only [CScan.use, CScan.declare, CScan.bind, CScan.refersToReleased, lookup_self, hfresh,
      Bool.or_false]
  · rw [if_neg hname]
    simp only [CScan.use, CScan.declare, CScan.bind, CScan.refersToReleased, lookup_of_ne hname]

theorem Sim.inits (v : Bytes) : (names : List Bytes) →
    Sim (fun c => names.foldl (fun c name => c.useInit v name) c) (Scan.uses names)
      (fun k => names.foldl (fun k name => k.useInit v name) k)
  | [] => Sim.skip
  | name :: names => (Sim.useInit v name).comp (Sim.inits v names)

theorem declare_uses {v : Bytes} : {names : List Bytes} → {c : CScan} →
    {a : Scan} → {k : Check} → Rel c a k →
    (c.declare v).uses names = (names.foldl (fun c name => c.useInit v name) c).declare v
  | [], _, _, _, _ => rfl
  | name :: names, c, a, k, hrel => by
    rw [List.foldl_cons, ← declare_uses ((Sim.useInit v name).step hrel).1,
      ← declare_use hrel.released]
    rfl

/-- A declaration with an initialiser. -/
theorem Sim.declareWith (v : Bytes) (names : List Bytes) :
    Sim (fun c => (c.declare v).uses names) (fun a => (a.uses names).declare v)
      (Check.declareWith v names) where
  step hrel := by
    rw [declare_uses hrel]
    exact ((Sim.inits v names).comp (Sim.declare v)).step hrel

theorem Rel.drop {c : CScan} {a : Scan} {k : Check} (hrel : Rel c a k) (m : Managed)
    (hmeant : (a.env.lookup m.var).isSome = true) :
    Rel (c.drop m.printed.var) (a.drop m.var) (k.drop m) where
  next := hrel.next
  stale := hrel.stale
  block := hrel.block
  known := hrel.known
  declared := hrel.declared
  inj := hrel.inj
  named := hrel.named
  released {t} ht := by
    rcases List.mem_append.mp ht with ht | ht
    · exact hrel.known (Option.mem_toList.mp ht)
    · exact hrel.released ht
  uses := hrel.uses
  drops := by
    obtain ⟨i, hi⟩ := Option.isSome_iff_exists.mp hmeant
    refine agree_append.trans ?_
    simp only [Check.drop, Bool.and_eq_true, beq_iff_eq, Bool.not_eq_true', List.contains_eq_mem,
      decide_eq_false_iff_not, and_assoc, hrel.drops]
    refine and_congr_right fun _ => ?_
    rw [hrel.stale m.var]
    constructor
    · intro heq
      rw [hi] at heq
      have hname := hrel.named hi heq
      exact ⟨hname.symm, by rw [hname, heq, ← hname, hi]⟩
    · rintro ⟨hname, heq⟩
      rw [hname]
      exact heq
  once := hrel.once
  safe := by
    intro hsafe
    simp only [Check.drop, Bool.and_eq_true, Bool.not_eq_true', List.contains_eq_mem,
      decide_eq_true_eq, decide_eq_false_iff_not] at hsafe
    obtain ⟨⟨hsafe, hmine⟩, hthere⟩ := hsafe
    obtain ⟨hlate, hgone⟩ := hrel.safe hsafe
    have hblock : c.block.contains m.printed.var = true := by
      rw [List.contains_eq_mem, hrel.block, decide_eq_true_eq]
      exact List.mem_append_left _ hmine
    refine ⟨?_, ?_⟩
    · simp only [CScan.drop, hlate, hblock, Bool.false_or, Bool.not_true, Bool.or_false,
        CScan.refersToReleased]
      split
      · next t ht =>
        simp only [List.contains_eq_mem, decide_eq_false_iff_not]
        exact fun hmem => hthere (hgone ht hmem)
      · rfl
    · intro x t ht hreleased
      rcases List.mem_append.mp hreleased with hreleased | hreleased
      · exact List.mem_cons.mpr (.inl (hrel.inj ht (Option.mem_toList.mp hreleased)))
      · exact List.mem_cons_of_mem _ (hgone ht hreleased)

theorem Rel.dropAll {c : CScan} {a : Scan} {k : Check} (hrel : Rel c a k) : (ms : List Managed) →
    (∀ m ∈ ms, (a.env.lookup m.var).isSome = true) →
    Rel ((ms.map fun m => m.printed.var).foldl (fun c name => c.drop name) c)
        (ms.foldl (fun a m => a.drop m.var) a) (ms.foldl (fun k m => k.drop m) k) ∧
      Extends c k ((ms.map fun m => m.printed.var).foldl (fun c name => c.drop name) c)
        (ms.foldl (fun k m => k.drop m) k)
  | [], _ => ⟨hrel, Extends.refl _ _⟩
  | m :: ms, hmeant => by
    have hfirst := hrel.drop m (hmeant m List.mem_cons_self)
    have hext : Extends c k (c.drop m.printed.var) (k.drop m) :=
      Extends.of_eq (fun ht => ht) rfl rfl rfl fun hsafe => by
        simp only [Check.drop, Bool.and_eq_true] at hsafe
        exact hsafe.1.1
    obtain ⟨hrest, hext'⟩ := hfirst.dropAll ms fun m' hm' => hmeant m' (List.mem_cons_of_mem _ hm')
    exact ⟨hrest, hext.trans hext'⟩

theorem Rel.openBraces {c : CScan} {a : Scan} {k : Check} (hrel : Rel c a k) :
    Rel { c with block := [] } a { k with before := [], names := [] } :=
  ⟨hrel.next, hrel.stale, rfl, hrel.known, hrel.declared, hrel.inj, hrel.named, hrel.released,
    hrel.uses, hrel.drops, hrel.once, hrel.safe⟩

/-- The end of a C block. -/
theorem Rel.closeBraces {c c' : CScan} {a a' : Scan} {k k' : Check} (hrel : Rel c a k)
    (hin : Rel c' a' k')
    (hext : Extends { c with block := [] } { k with before := [], names := [] } c' k') :
    Rel { c' with env := c.env, block := c.block, released := c.released }
        { a' with env := a.env }
        { k' with stale := k.stale, gone := k.gone, before := k.before, names := k.names } ∧
      Extends c k { c' with env := c.env, block := c.block, released := c.released }
        { k' with stale := k.stale, gone := k.gone, before := k.before, names := k.names } := by
  have hknown : ∀ {t}, c.Known t →
      ({ c' with env := c.env, block := c.block, released := c.released } : CScan).Known t :=
    fun ht => hext.known ht
  refine ⟨⟨hin.next, hrel.stale, hrel.block, fun h => hknown (hrel.known h), ?_, hrel.inj,
    hrel.named, fun h => hknown (hrel.released h), hin.uses, hin.drops, hin.once, ?_⟩,
    Extends.of_eq hknown rfl rfl rfl fun hsafe => hext.safe hsafe⟩
  · intro x i hi
    have hlt : c.Known (.program i) := (hrel.next ▸ hrel.declared hi : i < c.next)
    exact hin.next ▸ hknown hlt
  · intro hsafe
    exact ⟨(hin.safe hsafe).1, (hrel.safe (hext.safe hsafe)).2⟩

theorem Rel.openBlock {c : CScan} {a : Scan} {k : Check} (hrel : Rel c a k) :
    Rel c a { k with before := k.names ++ k.before, names := [] } :=
  ⟨hrel.next, hrel.stale, hrel.block, hrel.known, hrel.declared, hrel.inj, hrel.named,
    hrel.released, hrel.uses, hrel.drops, hrel.once, hrel.safe⟩

/-- The end of a block of the program without braces. -/
theorem Rel.closeBlock {c c' : CScan} {a a' : Scan} {k k' : Check} (hrel : Rel c a k)
    (hin : Rel c' a' k')
    (hext : Extends c { k with before := k.names ++ k.before, names := [] } c' k') :
    Rel c' { a' with env := a.env }
        { k' with
          stale := k'.names ++ k.stale, before := k.before, names := k'.names ++ k.names } ∧
      Extends c k c'
        { k' with
          stale := k'.names ++ k.stale, before := k.before, names := k'.names ++ k.names } := by
  obtain ⟨new, hnew, hsame, hfresh⟩ := hext.names
  rw [List.append_nil] at hnew
  subst hnew
  have hknown : ∀ {x i}, a.env.lookup x = some i → c.Known (.program i) :=
    fun hi => (hrel.next ▸ hrel.declared hi : _ < c.next)
  refine ⟨⟨hin.next, ?_, ?_, hin.known, ?_, hin.inj, ?_, hin.released, hin.uses, hin.drops,
    hin.once, hin.safe⟩, ⟨hext.known, rfl, ⟨k'.names, rfl, hsame, hfresh⟩, hext.safe⟩⟩
  · intro x
    rw [List.mem_append, not_or]
    by_cases hx : x ∈ k'.names
    · -- C sees a variable of the block, the language one from before it
      obtain ⟨t, ht, hunknown⟩ := hfresh x hx
      simp only [hx, not_true_eq_false, false_and, false_iff, ht]
      intro heq
      cases hsees : a.env.lookup x with
      | none => simp [hsees] at heq
      | some i =>
        rw [hsees, Option.map_some, Option.some.injEq] at heq
        exact hunknown (heq ▸ hknown hsees)
    · simp only [hx, not_false_eq_true, true_and, hsame x hx]
      exact hrel.stale x
  · rw [hin.block, hext.before, List.append_assoc]
  · intro x i hi
    exact hin.next ▸ hext.known (hknown hi)
  · intro x y i hi hy
    by_cases hx : y ∈ k'.names
    · obtain ⟨t, ht, hunknown⟩ := hfresh y hx
      exact absurd (Option.some.inj (ht.symm.trans hy) ▸ hknown hi) hunknown
    · exact hrel.named hi ((hsame y hx).symm.trans hy)

/-! ## §3 Emitted statements -/

/-- What the emitter writes, read under C's rules. -/
abbrev Reading := Nat → (CScan → CScan) × Nat

def Reading.seq (r s : Reading) : Reading := fun n =>
  (fun c => (s (r n).2).1 ((r n).1 c), (s (r n).2).2)

def Reading.pure (f : CScan → CScan) : Reading := fun n => (f, n)

def Reading.inBraces (r : Reading) : Reading := fun n => (CScan.inBraces (r n).1, (r n).2)

/-- The emitter's text and the two readings of the program agree, and `h` keeps
count of the labels. -/
structure EmitSim (r : Reading) (g : Scan → Scan) (h : Check → Check) : Prop where
  step : ∀ {c a k}, Rel c a k → Rel ((r k.label).1 c) (g a) (h k) ∧
    Extends c k ((r k.label).1 c) (h k) ∧ (h k).label = (r k.label).2

theorem EmitSim.seq {r r' : Reading} {g g' : Scan → Scan} {h h' : Check → Check}
    (hs : EmitSim r g h) (hs' : EmitSim r' g' h') :
    EmitSim (r.seq r') (fun a => g' (g a)) (fun k => h' (h k)) where
  step hrel := by
    obtain ⟨hrel₁, hext₁, hlabel₁⟩ := hs.step hrel
    obtain ⟨hrel₂, hext₂, hlabel₂⟩ := hs'.step hrel₁
    rw [hlabel₁] at hrel₂ hext₂ hlabel₂
    exact ⟨hrel₂, hext₁.trans hext₂, hlabel₂⟩

theorem EmitSim.pure {f : CScan → CScan} {g : Scan → Scan} {h : Check → Check} (hs : Sim f g h)
    (hlabel : ∀ k, (h k).label = k.label) : EmitSim (Reading.pure f) g h where
  step hrel := ⟨(hs.step hrel).1, (hs.step hrel).2, hlabel _⟩

theorem EmitSim.skip : EmitSim (Reading.pure id) id id := EmitSim.pure Sim.skip fun _ => rfl

theorem EmitSim.inBraces {r : Reading} {g : Scan → Scan} {h : Check → Check}
    (hs : EmitSim r g h) : EmitSim r.inBraces (Scan.inScope g) (Check.inBraces h) where
  step hrel := by
    obtain ⟨hin, hext, hlabel⟩ := hs.step hrel.openBraces
    exact ⟨(hrel.closeBraces hin hext).1, (hrel.closeBraces hin hext).2, hlabel⟩

theorem mentions_label (names : List Bytes) (k : Check) : (k.mentions names).label = k.label := by
  induction names generalizing k with
  | nil => rfl
  | cons name names ih => exact ih (k.use name)

section

variable (printed : AstNode → List Bytes) (cg : EmitContext)

/-- The statements of an emission. -/
def reading (e : Emit (List CStmt)) : Reading := fun n => (cScanList printed (e n).1, (e n).2)

def readingText (e : Emit CText) : Reading := fun n =>
  (CScan.uses (textNames printed (e n).1), (e n).2)

theorem CScan.uses_append (xs ys : List Bytes) (c : CScan) :
    c.uses (xs ++ ys) = (c.uses xs).uses ys := List.foldl_append

theorem Scan.uses_append (xs ys : List Bytes) (a : Scan) :
    a.uses (xs ++ ys) = (a.uses xs).uses ys := List.foldl_append

theorem emitText_sim (node : AstNode) :
    EmitSim (readingText printed (emitText cg node)) (Scan.uses (printed node))
      (checkText printed cg node) where
  step {c a k} hrel := by
    have hread : readingText printed (emitText cg node) k.label =
        (CScan.uses (printed node), k.label + cg.labels node) :=
      congrArg (fun names => (CScan.uses names, k.label + cg.labels node)) (List.append_nil _)
    rw [hread]
    obtain ⟨hrel₁, hext₁⟩ := ((Sim.labels (cg.labels node)).comp (Sim.uses (printed node))).step hrel
    exact ⟨hrel₁, hext₁, mentions_label _ _⟩

theorem emitTextOpt_sim : (node : Option AstNode) →
    EmitSim (readingText printed (emitTextOpt cg node)) (Scan.uses (namesOpt printed node))
      (checkTextOpt printed cg node)
  | none => EmitSim.skip
  | some node => emitText_sim printed cg node

theorem emitTexts_sim : (nodes : List AstNode) →
    EmitSim (readingText printed (emitTexts cg nodes)) (Scan.uses (nodes.flatMap printed))
      (checkTexts printed cg nodes)
  | [] => EmitSim.skip
  | node :: nodes => by
    have hread : readingText printed (emitTexts cg (node :: nodes)) =
        (readingText printed (emitText cg node)).seq
          (readingText printed (emitTexts cg nodes)) := by
      funext n
      refine Prod.ext (funext fun c => ?_) rfl
      refine Eq.trans ?_ (CScan.uses_append _ _ c)
      exact congrArg (CScan.uses · c) List.flatMap_append
    rw [hread, List.flatMap_cons, funext (Scan.uses_append (printed node) (nodes.flatMap printed))]
    exact (emitText_sim printed cg node).seq (emitTexts_sim nodes)

theorem cScanList_append (xs ys : List CStmt) (c : CScan) :
    cScanList printed (xs ++ ys) c = cScanList printed ys (cScanList printed xs c) := by
  induction xs generalizing c with
  | nil => rfl
  | cons x xs ih => exact ih (cScan printed x c)

/-- The statements of two emissions one after the other. -/
theorem reading_append (e e' : Emit (List CStmt)) :
    reading printed (do return (← e) ++ (← e')) = (reading printed e).seq (reading printed e') :=
  funext fun _ => Prod.ext (funext fun c => cScanList_append printed _ _ c) rfl

theorem EmitSim.append {e e' : Emit (List CStmt)} {g g' : Scan → Scan} {h h' : Check → Check}
    (hs : EmitSim (reading printed e) g h) (hs' : EmitSim (reading printed e') g' h') :
    EmitSim (reading printed (do return (← e) ++ (← e'))) (fun a => g' (g a))
      (fun k => h' (h k)) := by
  rw [reading_append]
  exact hs.seq hs'

theorem inits_label (v : Bytes) (names : List Bytes) (k : Check) :
    (names.foldl (fun k name => k.useInit v name) k).label = k.label := by
  induction names generalizing k with
  | nil => rfl
  | cons name names ih =>
    refine (ih (k.useInit v name)).trans ?_
    unfold Check.useInit
    split <;> rfl

theorem let_sim (name : Bytes) (type : Option AstNode) : (value : Option AstNode) →
    EmitSim (reading printed (cEmitLet cg name type value))
      (fun a => (a.uses (namesOpt printed value)).declare name) (checkLet printed cg name value)
  | none => EmitSim.pure (Sim.declareWith name []) fun _ => rfl
  | some node => by
    refine ⟨fun {c a k} hrel => ?_⟩
    have hread : (reading printed (cEmitLet cg name type (some node)) k.label) =
        (fun c => (c.declare name).uses (printed node), k.label + cg.labels node) :=
      congrArg (fun names => (fun c => (CScan.declare name c).uses names, k.label + cg.labels node))
        (List.append_nil _)
    rw [hread]
    obtain ⟨hrel₁, hext₁⟩ :=
      ((Sim.labels (cg.labels node)).comp (Sim.declareWith name (printed node))).step hrel
    exact ⟨hrel₁, hext₁, inits_label name (printed node) _⟩

theorem own_sim (name : Bytes) :
    EmitSim (Reading.pure (CScan.declareOwn name)) id (Check.declareOwn name) :=
  EmitSim.pure (Sim.declareOwn name) fun _ => rfl

theorem declare_sim (name : Bytes) :
    EmitSim (Reading.pure (CScan.declare name)) (Scan.declare name) (Check.declare name) :=
  EmitSim.pure (Sim.declare name) fun _ => rfl

theorem declareAll_sim : (names : List Bytes) →
    EmitSim (Reading.pure fun c => names.foldl (fun c name => c.declare name) c)
      (Scan.declareAll names) (Check.declareAll names)
  | [] => EmitSim.skip
  | name :: names => (declare_sim name).seq (declareAll_sim names)

/-- The variables of the program that are not declared. -/
theorem unprintedVars_sim : (names : List Bytes) →
    EmitSim (Reading.pure (cScanList printed (unprintedVars names))) (Scan.declareAll names)
      (Check.hideAll names)
  | [] => EmitSim.skip
  | name :: names =>
    (EmitSim.pure (Sim.unprinted name) fun _ => rfl).seq (unprintedVars_sim names)

theorem flatMap_managedOf_unprinted (names : List Bytes) :
    (unprintedVars names).flatMap managedOf = [] := by
  induction names with
  | nil => rfl
  | cons name names ih => exact ih

/-! ## §4 Managed variables of a block -/

theorem managedOf_emitBlockNode (vars : List Bytes) (node : AstNode) (n : Nat) :
    (cEmitBlockNode cg (unprintedVars vars) node n).1.flatMap managedOf = [] := by
  cases node with
  | _ => rfl

theorem managedOf_emitBlock (vars : List Bytes) (node : Option AstNode) (n : Nat) :
    (cEmitBlock cg (unprintedVars vars) node n).1.flatMap managedOf = [] := by
  cases node with
  | none => rfl
  | some node => exact managedOf_emitBlockNode cg vars node n

theorem managedOf_emitFor (var indexVar : Option Bytes) (body : Emit (List CStmt))
    (iterable : AstNode) (n : Nat) :
    (cEmitFor cg var indexVar body iterable n).1.flatMap managedOf = [] := by
  unfold cEmitFor
  split <;> rfl

theorem managedOf_emitReturn (value : Option AstNode) (n : Nat) :
    (cEmitReturn cg value n).1.flatMap managedOf = [] := by
  unfold cEmitReturn
  split
  · cases value <;> rfl
  · rfl

theorem managedOf_emitThrow (value : Option AstNode) (n : Nat) :
    (cEmitThrow cg value n).1.flatMap managedOf = [] := by
  unfold cEmitThrow
  split
  · rfl
  · cases value <;> rfl

theorem managedOf_emitJump {jump : CStmt} (hjump : managedOf jump = []) (suffix : String) :
    (label : Option Bytes) → (cEmitJump jump suffix label).flatMap managedOf = []
  | none => by simp [cEmitJump, hjump]
  | some [] => by simp [cEmitJump, hjump]
  | some (_ :: _) => rfl

theorem managedOf_emitStmt (stmt : AstNode) (n : Nat) :
    (cEmitStmt cg stmt n).1.flatMap managedOf = nodeManaged cg.classes stmt := by
  cases stmt with
  | letNode name type value isMut isGlobal => exact List.append_nil _
  | forNode var indexVar iterable body =>
    cases iterable with
    | none => exact managedOf_emitBlock cg _ body n
    | some iterable => exact managedOf_emitFor cg var indexVar _ iterable n
  | returnNode value => exact managedOf_emitReturn cg value n
  | breakNode label => exact managedOf_emitJump rfl _ label
  | continueNode label => exact managedOf_emitJump rfl _ label
  | deferNode body =>
    cases body with
    | none => rfl
    | some body => cases body <;> rfl
  | throwNode value => exact managedOf_emitThrow cg value n
  | unsafeNode body =>
    cases body with
    | nil => rfl
    | cons body rest => exact managedOf_emitBlockNode cg [] body n
  | region name body => exact managedOf_emitBlock cg [] body n
  | spawn call =>
    rw [cEmitStmt]
    cases spawnExprs call <;> rfl
  | _ => rfl

theorem managedOf_emitStmts (stmts : List AstNode) : ∀ n : Nat,
    (cEmitStmts cg stmts n).1.flatMap managedOf = stmts.flatMap (nodeManaged cg.classes) := by
  induction stmts with
  | nil => exact fun _ => rfl
  | cons stmt stmts ih =>
    intro n
    refine Eq.trans List.flatMap_append ?_
    rw [List.flatMap_cons]
    exact congrArg₂ _ (managedOf_emitStmt cg stmt n) (ih _)

theorem Scan.uses_env (names : List Bytes) (a : Scan) : (a.uses names).env = a.env := by
  induction names generalizing a with
  | nil => rfl
  | cons name names ih => exact ih (a.use name)

theorem scanBlock_env (vars : List Bytes) (a : Scan) : (node : Option AstNode) →
    (scanBlock printed cg.classes cg.throws vars node a).env = a.env
  | none => rfl
  | some node => by cases node <;> rfl

/-- A statement declares at most its own variable for those after it. -/
theorem scan_env (stmt : AstNode) (a : Scan) :
    (scan printed cg.classes cg.throws stmt a).env = a.env ∨
      ∃ name i, (scan printed cg.classes cg.throws stmt a).env = (name, i) :: a.env := by
  cases stmt with
  | letNode name type value isMut isGlobal =>
    exact .inr ⟨name, _, congrArg ((name, _) :: ·) (Scan.uses_env _ a)⟩
  | constDecl name value => exact .inr ⟨name, _, congrArg ((name, _) :: ·) (Scan.uses_env _ a)⟩
  | whileNode condition body => exact .inl (Scan.uses_env _ a)
  | ifNode condition thenBlock elifChain elseBlock => exact .inl (Scan.uses_env _ a)
  | forNode var indexVar iterable body =>
    cases iterable with
    | none => exact .inl (scanBlock_env printed cg _ a body)
    | some iterable => exact .inl rfl
  | returnNode value => exact .inl (Scan.uses_env _ a)
  | exprStmt value => exact .inl (Scan.uses_env _ a)
  | deferNode body => exact .inl (scanBlock_env printed cg _ a body)
  | region name body => exact .inl (scanBlock_env printed cg _ a body)
  | spawn call => exact .inl (Scan.uses_env _ a)
  | throwNode value =>
    refine .inl ?_
    rw [scan]
    split
    · rfl
    · exact Scan.uses_env _ a
  | unsafeNode body =>
    cases body with
    | nil => exact .inl rfl
    | cons node rest => exact .inl (scanBlock_env printed cg [] a (some node))
  | _ => exact .inl rfl

theorem scan_keeps (stmt : AstNode) {a : Scan} {x : Bytes}
    (h : (a.env.lookup x).isSome = true) :
    ((scan printed cg.classes cg.throws stmt a).env.lookup x).isSome = true := by
  rcases scan_env printed cg stmt a with henv | ⟨name, i, henv⟩
  · rw [henv]
    exact h
  · rw [henv]
    by_cases hx : x = name
    · rw [hx, lookup_self]
      rfl
    · rw [lookup_of_ne hx]
      exact h

theorem scanStmts_keeps : (stmts : List AstNode) → {a : Scan} → {x : Bytes} →
    (a.env.lookup x).isSome = true →
    ((scanStmts printed cg.classes cg.throws stmts a).env.lookup x).isSome = true
  | [], _, _, h => h
  | stmt :: stmts, _, _, h => scanStmts_keeps stmts (scan_keeps printed cg stmt h)

theorem var_of_mem_managedBy {classes : List Bytes} {name : Bytes} {type : Option AstNode}
    {m : Managed} (hm : m ∈ managedBy classes name type) : m.var = name := by
  unfold managedBy at hm
  split at hm
  · split at hm
    · rw [List.mem_singleton.mp hm]
    · cases hm
  · rcases List.mem_append.mp hm with hm | hm
    · split at hm
      · rw [List.mem_singleton.mp hm]
      · cases hm
    · split at hm
      · rw [List.mem_singleton.mp hm]
      · cases hm
  · cases hm

/-- The managed variables of a block are in scope at its end. -/
theorem scanStmts_managed : (stmts : List AstNode) → (a : Scan) →
    ∀ m ∈ stmts.flatMap (nodeManaged cg.classes),
      ((scanStmts printed cg.classes cg.throws stmts a).env.lookup m.var).isSome = true
  | stmt :: stmts, a, m, hm => by
    rcases List.mem_append.mp (List.flatMap_cons ▸ hm) with hm | hm
    · refine scanStmts_keeps printed cg stmts ?_
      cases stmt with
      | letNode name type value isMut isGlobal =>
        rw [var_of_mem_managedBy hm]
        exact congrArg Option.isSome (lookup_self name _ _)
      | _ => cases hm
    · exact scanStmts_managed stmts _ m hm

/-! ## §5 Statements -/

theorem dropAll_label (ms : List Managed) (k : Check) :
    (ms.foldl (fun k m => k.drop m) k).label = k.label := by
  induction ms generalizing k with
  | nil => rfl
  | cons m ms ih => exact ih (k.drop m)

/-- A block, once its statements are known to agree. -/
theorem block_sim (vars : List Bytes) (stmts : List AstNode)
    (hs : EmitSim (reading printed (cEmitStmts cg stmts))
      (scanStmts printed cg.classes cg.throws stmts) (checkStmts printed cg stmts)) :
    EmitSim (reading printed (do return [.inlined (unprintedVars vars ++ (← cEmitStmts cg stmts))]))
      (Scan.block vars (stmts.flatMap (nodeManaged cg.classes))
        (scanStmts printed cg.classes cg.throws stmts))
      (Check.block vars (stmts.flatMap (nodeManaged cg.classes)) (checkStmts printed cg stmts)) where
  step {c a k} hrel := by
    obtain ⟨hin, hext, hlabel⟩ := ((unprintedVars_sim printed vars).seq hs).step hrel.openBlock
    obtain ⟨hend, hext'⟩ := hin.dropAll (stmts.flatMap (nodeManaged cg.classes))
      (scanStmts_managed printed cg stmts _)
    have hmanaged : (unprintedVars vars ++ (cEmitStmts cg stmts k.label).1).flatMap managedOf =
        stmts.flatMap (nodeManaged cg.classes) := by
      rw [List.flatMap_append, flatMap_managedOf_unprinted, managedOf_emitStmts, List.nil_append]
    have hread : ((reading printed
        (do return [.inlined (unprintedVars vars ++ (← cEmitStmts cg stmts))]) k.label).1 c) =
        ((stmts.flatMap (nodeManaged cg.classes)).map fun m => m.printed.var).foldl
          (fun c name => c.drop name)
          (cScanList printed (cEmitStmts cg stmts k.label).1
            (cScanList printed (unprintedVars vars) c)) := by
      rw [← hmanaged, ← cScanList_append]
      rfl
    obtain ⟨hclose, hext''⟩ := hrel.closeBlock hend (hext.trans hext')
    rw [hread]
    exact ⟨hclose, hext'', (dropAll_label _ _).trans hlabel⟩

theorem varDecl_sim (own : List String) : (name : Option Bytes) →
    EmitSim (Reading.pure (cScanList printed (varDecl own name))) (Scan.declareAll name.toList)
      (Check.declareAll name.toList)
  | none => EmitSim.skip
  | some name => declare_sim name

theorem return_sim (value : Option AstNode) :
    EmitSim (reading printed (cEmitReturn cg value)) (Scan.uses (namesOpt printed value))
      (checkThrows cg "__ret" (checkTextOpt printed cg value)) := by
  unfold cEmitReturn checkThrows
  split
  · cases value with
    | none => exact own_sim _
    | some value => exact (own_sim _).seq (emitText_sim printed cg value)
  · cases value with
    | none => exact EmitSim.skip
    | some value => exact emitText_sim printed cg value

theorem throw_sim (value : Option AstNode) :
    EmitSim (reading printed (cEmitThrow cg value))
      (if cg.throws then id else Scan.uses (namesOpt printed value))
      (checkThrows cg "__err" (if cg.throws then id else checkTextOpt printed cg value)) := by
  unfold cEmitThrow checkThrows
  split
  · exact own_sim _
  · cases value with
    | none => exact EmitSim.skip
    | some value => exact emitText_sim printed cg value

/-- The variables of a loop and its body, in the braces of the loop. -/
theorem loopBody_sim (own own' : List String) (var indexVar : Option Bytes)
    {body : Emit (List CStmt)} {g : Scan → Scan} {h : Check → Check}
    (hbody : EmitSim (reading printed body) g h) :
    EmitSim (reading printed (do return varDecl own var ++ varDecl own' indexVar ++ (← body)))
      (fun a => g (a.declareAll (var.toList ++ indexVar.toList)))
      (fun k => h (k.declareAll (var.toList ++ indexVar.toList))) where
  step {c a k} hrel := by
    have hread : (reading printed (do return varDecl own var ++ varDecl own' indexVar ++ (← body))) =
        ((Reading.pure (cScanList printed (varDecl own var))).seq
          (Reading.pure (cScanList printed (varDecl own' indexVar)))).seq (reading printed body) := by
      funext n
      refine Prod.ext (funext fun c => ?_) rfl
      refine (cScanList_append printed _ _ c).trans ?_
      rw [cScanList_append]
      rfl
    have hscan : a.declareAll (var.toList ++ indexVar.toList) =
        (a.declareAll var.toList).declareAll indexVar.toList := List.foldl_append
    have hcheck : k.declareAll (var.toList ++ indexVar.toList) =
        (k.declareAll var.toList).declareAll indexVar.toList := List.foldl_append
    rw [hread, hscan, hcheck]
    exact (((varDecl_sim printed own var).seq (varDecl_sim printed own' indexVar)).seq hbody).step
      hrel

/-- The counter of a loop is stepped at the end of its body. -/
theorem reading_step (own : List String) (e : Emit (List CStmt)) :
    reading printed (do return (← e) ++ [.expr (ownText own)]) = reading printed e :=
  funext fun _ => Prod.ext (funext fun c => cScanList_append printed _ _ c) rfl

theorem range_sim (var indexVar : Option Bytes) {body : Emit (List CStmt)} {g : Scan → Scan}
    {h : Check → Check} (hbody : EmitSim (reading printed body) g h)
    (left right : Option AstNode) :
    EmitSim (reading printed (cEmitForRange cg var indexVar body left right))
      (Scan.inScope fun a =>
        (a.uses (namesOpt printed left ++ namesOpt printed right)).inScope fun a =>
          g (a.declareAll (var.toList ++ indexVar.toList)))
      (checkFor.checkRange printed cg var indexVar h left right) where
  step {c a k} hrel := by
    let counter := "__i_" ++ toString k.label
    have hloop := loopBody_sim printed [counter] [counter] var indexVar hbody
    rw [← reading_step printed [counter]] at hloop
    have hrange := ((own_sim (bytes "__range_start")).seq ((emitTextOpt_sim printed cg left).seq
      ((own_sim (bytes "__range_end")).seq ((emitTextOpt_sim printed cg right).seq
        ((own_sim (bytes counter)).seq hloop.inBraces))))).inBraces
    obtain ⟨hrel₁, hext₁⟩ := (Sim.labels 2).step hrel
    obtain ⟨hrel₂, hext₂, hlabel⟩ := hrange.step hrel₁
    simp only [Scan.uses_append]
    -- the goal is compared as a whole, so that the emitted text is unfolded once
    have hrun := And.intro hrel₂ (And.intro (hext₁.trans hext₂) hlabel)
    exact hrun

theorem for_sim (var indexVar : Option Bytes) {body : Emit (List CStmt)} {g : Scan → Scan}
    {h : Check → Check} (hbody : EmitSim (reading printed body) g h) (iterable : AstNode) :
    EmitSim (reading printed (cEmitFor cg var indexVar body iterable))
      (Scan.inScope fun a => (a.uses (iterableNames printed iterable)).inScope fun a =>
        g (a.declareAll (var.toList ++ indexVar.toList)))
      (checkFor printed cg var indexVar h iterable) := by
  have hloop := ((own_sim (bytes "__i")).seq
    (loopBody_sim printed ["__arr", "__i"] ["__i"] var indexVar hbody).inBraces).inBraces
  -- C has two blocks where the language has one scope
  have hscope : (Scan.inScope fun a => Scan.inScope
      (fun a => g (a.declareAll (var.toList ++ indexVar.toList))) (id a)) =
      Scan.inScope fun a => g (a.declareAll (var.toList ++ indexVar.toList)) := rfl
  rw [hscope] at hloop
  have hother := ((own_sim (bytes "__arr")).seq
    ((emitText_sim printed cg iterable).seq hloop)).inBraces
  cases iterable with
  | binaryOp op left right customOp =>
    cases op with
    | range => exact range_sim printed cg var indexVar hbody left right
    | rangeInclusive => exact range_sim printed cg var indexVar hbody left right
    | _ => exact hother
  | _ => exact hother

def readingInit (e : Emit (Option CText)) : Reading := fun n =>
  (CScan.uses (initNames printed (e n).1), (e n).2)

theorem armCondition_sim (pattern : Option AstNode) (patterns : List AstNode) :
    EmitSim (readingInit printed (emitArmCondition cg pattern patterns))
      (Scan.uses ((armExprs pattern patterns).flatMap printed))
      (checkTexts printed cg (armExprs pattern patterns)) := by
  unfold emitArmCondition armExprs
  split
  · exact EmitSim.skip
  · split
    · exact EmitSim.skip
    · exact emitTexts_sim printed cg _

theorem inBraces_uses (f : CScan → CScan) (names : List Bytes) (c : CScan) :
    (c.uses names).inBraces f = c.inBraces fun c => f (c.uses names) := by
  induction names generalizing c with
  | nil => rfl
  | cons name names ih => exact ih (c.use name)

theorem unprinted_uses (names : List Bytes) (c : CScan) :
    (c.uses names).unprinted = c.unprinted.uses names := by
  induction names generalizing c with
  | nil => rfl
  | cons name names ih => exact ih (c.use name)

theorem unprintedVars_uses (vars names : List Bytes) (c : CScan) :
    cScanList printed (unprintedVars vars) (c.uses names) =
      (cScanList printed (unprintedVars vars) c).uses names := by
  induction vars generalizing c with
  | nil => rfl
  | cons var vars ih =>
    refine (congrArg (cScanList printed (unprintedVars vars)) (unprinted_uses names c)).trans ?_
    exact ih c.unprinted

/-- An arm of a match. Its condition stands before its braces. -/
theorem arm_sim (pattern : Option AstNode) (patterns : List AstNode) {body others : Emit (List CStmt)}
    {g g' : Scan → Scan} {h h' : Check → Check} (hbody : EmitSim (reading printed body) g h)
    (hothers : EmitSim (reading printed others) g' h') :
    EmitSim (reading printed (do
        let cond ← emitArmCondition cg pattern patterns
        let body ← body
        let rest ← others
        return [.ite cond (unprintedVars (armNames pattern patterns) ++ body) rest]))
      (fun a => (a.inScope fun a => g ((a.declareAll (armNames pattern patterns)).uses
        ((armExprs pattern patterns).flatMap printed))).inScope g')
      (fun k => (k.inBraces fun k => h (checkTexts printed cg (armExprs pattern patterns)
        (k.hideAll (armNames pattern patterns)))).inBraces h') where
  step {c a k} hrel := by
    have hread : reading printed (do
        let cond ← emitArmCondition cg pattern patterns
        let body ← body
        let rest ← others
        return [.ite cond (unprintedVars (armNames pattern patterns) ++ body) rest]) =
        (((Reading.pure (cScanList printed (unprintedVars (armNames pattern patterns)))).seq
          (readingInit printed (emitArmCondition cg pattern patterns))).seq
          (reading printed body)).inBraces.seq (reading printed others).inBraces := by
      funext n
      refine Prod.ext (funext fun c => ?_) rfl
      refine congrArg (CScan.inBraces _) ((inBraces_uses _ _ c).trans ?_)
      refine congrArg (fun f => c.inBraces f) (funext fun c => ?_)
      refine (cScanList_append printed _ _ _).trans ?_
      exact congrArg (cScanList printed _) (unprintedVars_uses printed _ _ c)
    rw [hread]
    exact ((((unprintedVars_sim printed (armNames pattern patterns)).seq
      (armCondition_sim printed cg pattern patterns)).seq hbody).inBraces.seq hothers.inBraces).step
      hrel

theorem elif_sim (condition : Option AstNode) {thenBody elseBody : Emit (List CStmt)}
    {g g' : Scan → Scan} {h h' : Check → Check} (hthen : EmitSim (reading printed thenBody) g h)
    (helse : EmitSim (reading printed elseBody) g' h') :
    EmitSim (reading printed (do
        let cond ← emitTextOpt cg condition
        let thenBody ← thenBody
        let elseBody ← elseBody
        return [.ite (some cond) thenBody elseBody]))
      (fun a => ((a.uses (namesOpt printed condition)).inScope g).inScope g')
      (fun k => ((checkTextOpt printed cg condition k).inBraces h).inBraces h') :=
  ((emitTextOpt_sim printed cg condition).seq hthen.inBraces).seq helse.inBraces

/-- The chain of `elif` before a last `else`. -/
def emitChain (elifs : Emit (List (CText × List CStmt))) (last : Emit (List CStmt)) :
    Emit (List CStmt) := do
  let elifs ← elifs
  let last ← last
  return elifs.foldr (fun arm rest => [.ite (some arm.1) arm.2 rest]) last

theorem varBody_sim (own : List String) (var : Option Bytes) {body : Emit (List CStmt)}
    {g : Scan → Scan} {h : Check → Check} (hbody : EmitSim (reading printed body) g h) :
    EmitSim (reading printed (do return varDecl own var ++ (← body)))
      (fun a => g (a.declareAll var.toList)) (fun k => h (k.declareAll var.toList)) := by
  have hread : (reading printed (do return varDecl own var ++ (← body))) =
      (Reading.pure (cScanList printed (varDecl own var))).seq (reading printed body) :=
    funext fun _ => Prod.ext (funext fun c => cScanList_append printed _ _ c) rfl
  rw [hread]
  exact (varDecl_sim printed own var).seq hbody

theorem patternNames_head (pattern : Option AstNode) :
    (patternNames pattern).head?.toList = patternNames pattern := by
  unfold patternNames
  split <;> rfl

theorem ifLet_sim (pattern condition : Option AstNode) {body : Emit (List CStmt)}
    {g : Scan → Scan} {h : Check → Check} (hbody : EmitSim (reading printed body) g h) :
    EmitSim (reading printed (do
        let init ← emitTextOpt cg condition
        let body ← body
        return [.braces [ownDecl "__iflet_val" (some init),
          .ite (some (ownText ["__iflet_val"]))
            (varDecl ["__iflet_val"] (patternNames pattern).head? ++ body) []]]))
      (Scan.inScope fun a => (a.uses (namesOpt printed condition)).inScope fun a =>
        g (a.declareAll (patternNames pattern)))
      (Check.inBraces fun k =>
        (checkTextOpt printed cg condition (k.declareOwn (bytes "__iflet_val"))).inBraces fun k =>
          h (k.declareAll (patternNames pattern))) := by
  have hthen := varBody_sim printed ["__iflet_val"] (patternNames pattern).head? hbody
  rw [patternNames_head] at hthen
  exact ((own_sim _).seq ((emitTextOpt_sim printed cg condition).seq hthen.inBraces)).inBraces

theorem jump_sim {jump : CStmt} (hjump : cScan printed jump = id) (suffix : String) :
    (label : Option Bytes) → EmitSim (reading printed (pure (cEmitJump jump suffix label))) id id
  | none => by
    have hread : reading printed (pure (cEmitJump jump suffix none)) = Reading.pure id :=
      funext fun _ => Prod.ext (funext fun c => congrFun hjump c) rfl
    rw [hread]
    exact EmitSim.skip
  | some [] => by
    have hread : reading printed (pure (cEmitJump jump suffix (some []))) = Reading.pure id :=
      funext fun _ => Prod.ext (funext fun c => congrFun hjump c) rfl
    rw [hread]
    exact EmitSim.skip
  | some (_ :: _) => EmitSim.skip

theorem spawn_sim : (exprs : List AstNode) →
    EmitSim (reading printed (cEmitSpawn cg exprs)) (Scan.uses (exprs.flatMap printed))
      (checkTexts printed cg exprs)
  | [] => EmitSim.skip
  | node :: nodes => emitTexts_sim printed cg (node :: nodes)

mutual

theorem stmt_sim (stmt : AstNode) : EmitSim (reading printed (cEmitStmt cg stmt))
    (scan printed cg.classes cg.throws stmt) (check printed cg stmt) := by
  cases stmt with
  | letNode name type value isMut isGlobal => exact let_sim printed cg name type value
  | constDecl name value => exact let_sim printed cg name none value
  | ifNode condition thenBlock elifChain elseBlock =>
    exact elif_sim printed cg condition (optBlock_sim [] thenBlock)
      (elifs_sim elifChain (optBlock_sim [] elseBlock))
  | ifLet pattern condition thenBlock =>
    exact ifLet_sim printed cg pattern condition (optBlock_sim [] thenBlock)
  | whileNode condition body =>
    exact (emitTextOpt_sim printed cg condition).seq (optBlock_sim [] body).inBraces
  | forNode var indexVar iterable body =>
    cases iterable with
    | none => exact optBlock_sim (var.toList ++ indexVar.toList) body
    | some iterable => exact for_sim printed cg var indexVar (optBlock_sim [] body) iterable
  | returnNode value => exact return_sim printed cg value
  | breakNode label => exact jump_sim printed rfl _ label
  | continueNode label => exact jump_sim printed rfl _ label
  | deferNode body =>
    cases body with
    | none => exact EmitSim.skip
    | some body =>
      cases body with
      | block stmts => exact block_sim printed cg [] stmts (stmts_sim stmts)
      | _ => exact EmitSim.skip
  | exprStmt expr => exact emitTextOpt_sim printed cg expr
  | block stmts => exact block_sim printed cg [] stmts (stmts_sim stmts)
  | matchNode value arms =>
    exact ((own_sim _).seq ((emitTextOpt_sim printed cg value).seq (arms_sim arms))).inBraces
  | tryNode body catchArms finallyBody =>
    exact ((own_sim _).seq (((optBlock_sim [] body).inBraces.seq
      (handlers_sim catchArms).inBraces).seq (optBlock_sim [] finallyBody))).inBraces
  | throwNode value => exact throw_sim printed cg value
  | unsafeNode body =>
    cases body with
    | nil => exact EmitSim.skip
    | cons body rest => exact blockNode_sim [] body
  | region name body => exact optBlock_sim [] body
  | spawn call => exact spawn_sim printed cg (spawnExprs call)
  | _ => exact EmitSim.skip

theorem blockNode_sim (vars : List Bytes) (node : AstNode) :
    EmitSim (reading printed (cEmitBlockNode cg (unprintedVars vars) node))
      (scanBlockNode printed cg.classes cg.throws vars node)
      (checkBlockNode printed cg vars node) := by
  cases node with
  | block stmts => exact block_sim printed cg vars stmts (stmts_sim stmts)
  | _ => exact EmitSim.skip

theorem optBlock_sim (vars : List Bytes) : (node : Option AstNode) →
    EmitSim (reading printed (cEmitBlock cg (unprintedVars vars) node))
      (scanBlock printed cg.classes cg.throws vars node) (checkBlock printed cg vars node)
  | none => EmitSim.skip
  | some node => blockNode_sim vars node

theorem stmts_sim : (stmts : List AstNode) → EmitSim (reading printed (cEmitStmts cg stmts))
    (scanStmts printed cg.classes cg.throws stmts) (checkStmts printed cg stmts)
  | [] => EmitSim.skip
  | stmt :: stmts => (stmt_sim stmt).append printed (stmts_sim stmts)

theorem elifs_sim {last : Emit (List CStmt)} {g : Scan → Scan} {h : Check → Check} :
    (elifs : Option AstNode) → EmitSim (reading printed last) g h →
    EmitSim (reading printed (emitChain (cEmitElifs cg elifs) last))
      (scanElifs printed cg.classes cg.throws elifs g) (checkElifs printed cg elifs h)
  | none, hlast => hlast
  | some node, hlast => elifNode_sim node hlast

theorem elifNode_sim {last : Emit (List CStmt)} {g : Scan → Scan} {h : Check → Check}
    (node : AstNode) (hlast : EmitSim (reading printed last) g h) :
    EmitSim (reading printed (emitChain (cEmitElif cg node) last))
      (scanElif printed cg.classes cg.throws node g) (checkElif printed cg node h) := by
  cases node with
  | ifNode condition thenBlock elifChain elseBlock =>
    exact elif_sim printed cg condition (optBlock_sim [] thenBlock) (elifs_sim elifChain hlast)
  | _ => exact hlast

theorem arms_sim : (arms : List AstNode) → EmitSim (reading printed (cEmitArms cg arms))
    (scanArms printed cg.classes cg.throws arms) (checkArms printed cg arms)
  | [] => EmitSim.skip
  | arm :: arms => armNode_sim arm (arms_sim arms)

theorem armNode_sim {others : Emit (List CStmt)} {g : Scan → Scan} {h : Check → Check}
    (node : AstNode) (hothers : EmitSim (reading printed others) g h) :
    EmitSim (reading printed (cEmitArm cg node others))
      (scanArm printed cg.classes cg.throws node g) (checkArm printed cg node h) := by
  cases node with
  | matchArm pattern patterns body =>
    exact arm_sim printed cg pattern patterns (optBlock_sim [] body) hothers
  | _ => exact hothers

theorem handlers_sim : (arms : List AstNode) →
    EmitSim (reading printed (cEmitHandlers cg arms))
      (scanHandlers printed cg.classes cg.throws arms) (checkHandlers printed cg arms)
  | [] => EmitSim.skip
  | arm :: arms => (handler_sim arm).append printed (handlers_sim arms)

theorem handler_sim (node : AstNode) : EmitSim (reading printed (cEmitHandler cg node))
    (scanHandler printed cg.classes cg.throws node) (checkHandler printed cg node) := by
  cases node with
  | catchArm type var body isCatchAll => exact optBlock_sim var.toList body
  | _ => exact EmitSim.skip

end

/-! ## §6 Functions -/

theorem funcBody_sim (body : AstNode) :
    EmitSim (reading printed (cEmitFuncBody cg body))
      (scanFuncBody printed cg.classes cg.throws body) (checkFuncBody printed cg body) := by
  cases body with
  | block stmts => exact blockNode_sim printed cg [] (.block stmts)
  | _ => exact emitText_sim printed cg _

theorem mainParams_sim : (params : List AstNode) →
    EmitSim (Reading.pure (cScanList printed (cMainParams params)))
      (Scan.declareAll (params.flatMap paramName)) (checkMainParams params)
  | [] => EmitSim.skip
  | param :: params => by
    cases param with
    | param name type isMut isVarargs defaultValue =>
      rw [cMainParams, checkMainParams]
      split
      · exact (declare_sim name).seq (unprintedVars_sim printed (params.flatMap paramName))
      · exact unprintedVars_sim printed (name :: params.flatMap paramName)
    | _ => exact unprintedVars_sim printed (params.flatMap paramName)

theorem foldl_declareVar (names : List Bytes) (c : CScan) :
    (names.map fun name => (⟨name, false⟩ : CVar)).foldl (fun c v => c.declareVar v) c =
      names.foldl (fun c name => c.declare name) c := by
  induction names generalizing c with
  | nil => rfl
  | cons name names ih => exact ih (c.declare name)

theorem rel_start (label : Nat) : Rel CScan.start Scan.start { label := label } where
  next := rfl
  stale x := ⟨fun _ => rfl, fun _ => List.not_mem_nil⟩
  block := rfl
  known h := by cases h
  declared h := by cases h
  inj h := by cases h
  named h := by cases h
  released h := absurd h List.not_mem_nil
  uses := ⟨fun _ => rfl, fun _ => rfl⟩
  drops := ⟨fun _ => rfl, fun _ => rfl⟩
  once := ⟨fun _ => rfl, fun _ => rfl⟩
  safe _ := ⟨rfl, fun h => by cases h⟩

/-- The readings of a function are related at its end. -/
theorem function_rel {classes : List Bytes} {labels : AstNode → Nat} {label : Nat} {node : AstNode}
    {f : CFunction} (hf : (cEmitFuncDecl classes labels node label).1 = some f) :
    Rel (cScanFunction printed f) (scanFunction printed classes node)
      (checkFunction printed classes labels label node) := by
  cases node with
  | funcDecl name typeParams params returnType pre post body info =>
    cases body with
    | none => cases hf
    | some body =>
      have hbody := funcBody_sim printed ⟨classes, info.isThrows, labels⟩ body
      have hstart := rel_start label
      by_cases hmain : name = bytes "main"
      · obtain rfl := Option.some.inj ((cEmitFuncDecl_main hmain label).symm.trans hf)
        have hsim := ((own_sim (bytes "argc")).seq (own_sim (bytes "argv"))).seq
          ((mainParams_sim printed params).seq hbody)
        have hrel := (hsim.step hstart).1
        rw [cScanFunction, cScanList_append, checkFunction, if_pos hmain]
        exact hrel
      · obtain rfl := Option.some.inj ((cEmitFuncDecl_other hmain label).symm.trans hf)
        have hrel := (((declareAll_sim (params.flatMap paramName)).seq hbody).step hstart).1
        rw [cScanFunction, foldl_declareVar, checkFunction, if_neg hmain]
        exact hrel
  | _ => cases hf

end

/-! ## §7 Lexical scoping -/

/-- Every identifier in the C text of a function refers to the variable that
the language means, and no C block declares an identifier twice. -/
def ScopingKept (printed : AstNode → List Bytes) (classes : List Bytes) (labels : AstNode → Nat)
    (label : Nat) (node : AstNode) : Prop :=
  ∀ f, (cEmitFuncDecl classes labels node label).1 = some f →
    Agree (cScanFunction printed f).found (scanFunction printed classes node).found ∧
      Agree (cScanFunction printed f).drops (scanFunction printed classes node).drops ∧
      (cScanFunction printed f).twice = false

theorem checkFunction_of_none {printed : AstNode → List Bytes} {classes : List Bytes}
    {labels : AstNode → Nat} {label : Nat} {node : AstNode}
    (h : (cEmitFuncDecl classes labels node label).1 = none) :
    checkFunction printed classes labels label node = { label := label } := by
  cases node with
  | funcDecl name typeParams params returnType pre post body info =>
    cases body with
    | none => rfl
    | some body =>
      by_cases hmain : name = bytes "main"
      · simp only [cEmitFuncDecl, if_pos hmain] at h
        cases h
      · simp only [cEmitFuncDecl, if_neg hmain] at h
        cases h
  | _ => rfl

mutual

/-- The identifiers of an expression without blocks. -/
def exprNames : AstNode → List Bytes
  | .ident name => [name]
  | .binaryOp _ left right _ => exprNamesOpt left ++ exprNamesOpt right
  | .unaryOp _ operand => exprNamesOpt operand
  | .call callee args => exprNamesOpt callee ++ exprNamesList args
  | .index target index => exprNamesOpt target ++ exprNamesOpt index
  | .fieldAccess target _ => exprNamesOpt target
  | _ => []

def exprNamesOpt : Option AstNode → List Bytes
  | none => []
  | some node => exprNames node

def exprNamesList : List AstNode → List Bytes
  | [] => []
  | node :: nodes => exprNames node ++ exprNamesList nodes

end

/-- `let x = 10 let x = x + 5`, the example of `SPECIFICATION.md` §5.3. -/
def shadowing : AstNode :=
  .funcDecl (bytes "f") [] [] none [] [] (some (.block [
    .letNode (bytes "x") none (some (.literalInt 10 false)) false false,
    .letNode (bytes "x") none (some (.binaryOp .add (some (.ident (bytes "x")))
      (some (.literalInt 5 false)) [])) false false])) {}

end Aether.CTranspiler
