/-
Aether.CTranspiler.RangeTheorems — when the emitted C gives a range its
meaning.

The loop is a walk over the words from the start up to the end, whatever the
range operator says (`whileRange_visits`), and a test compares with both
ends inclusively, or with their sum. `range_meaning_iff` states for each
place at which a range can stand when that is what the range denotes.
-/
import Aether.CTranspiler.Range

namespace Aether.CTranspiler

open Aether.Lib.CInteger

-- the equations, before the proofs that share them
section
attribute [local simp] evalC decides InRange wordsFrom visits Leaves whileRange NoContinue
end

/-! ## §1 Tests -/

/-- A constant is compared with as it is. -/
theorem relation_constant {rel : Int → Int → Bool} {x v : CValue} (hv : 0 ≤ v.val)
    (hs : v.type.isSigned = true) : relation rel x v = rel x.val v.val := by
  refine relation_eq ?_
  cases hx : x.type.isSigned with
  | true => exact .inr (CType.join_signed hx hs)
  | false =>
    refine .inl ⟨?_, hv⟩
    have hlower := x.fits.1
    cases htype : x.type with
    | uint => rwa [htype] at hlower
    | ulong => rwa [htype] at hlower
    | int => rw [htype] at hx; cases hx
    | long => rw [htype] at hx; cases hx
    | int128 => rw [htype] at hx; cases hx

/-- The value that is tested. -/
def testedValue (place : RangePlace) (x : CValue) : CValue :=
  match place with
  | .stmtPattern | .stmtAlternative => convert .ulong x.val
  | .exprPattern | .exprAlternative => x

section

variable {env : Env} {val : CExpr} {y : CValue} {calls : List Call}

theorem evalC_constant {n : Nat} (h : n ≤ 18446744073709551615) :
    ∃ v, evalC env (.constant n) = some (v, []) ∧ v.val = n ∧ v.type = constantType n := by
  obtain ⟨v, hv, hval, htype⟩ := constant_eq h
  exact ⟨v, by rw [evalC, hv]; rfl, hval, htype⟩

theorem evalC_relation (op : COp) (rel : Int → Int → Bool) (hval : evalC env val = some (y, calls))
    (hop : ∀ a b, evalBinary op a b = some (truth (relation rel a b)))
    (hnot : ∀ a, decides op a = false) {e : CExpr} {v : CValue} {more : List Call}
    (he : evalC env e = some (v, more)) (hv : 0 ≤ v.val) (hs : v.type.isSigned = true) :
    evalC env (.binary op val e) = some (truth (rel y.val v.val), calls ++ more) := by
  rw [evalC_binary hval (hnot y) he, hop, relation_constant hv hs]
  rfl

/-- A conjunction of two tests. -/
theorem evalC_and {l r : CExpr} {p q : Bool} {more : List Call}
    (hl : evalC env l = some (truth p, calls)) (hr : evalC env r = some (truth q, more)) :
    ∃ v all, evalC env (.binary .and l r) = some (v, all) ∧ isTrue v = (p && q) := by
  rw [evalC, hl]
  cases p with
  | false => exact ⟨truth false, calls, rfl, isTrue_truth false⟩
  | true =>
    refine ⟨truth q, calls ++ more, ?_, ?_⟩
    · simp [decides, hr, evalBinary]
    · rw [isTrue_truth, Bool.true_and]

/-- A disjunction, whose right side counts only if the left one is false. -/
theorem evalC_or {l r : CExpr} {v w : CValue} {more : List Call}
    (hl : evalC env l = some (v, calls)) (hr : evalC env r = some (w, more)) :
    ∃ u all, evalC env (.binary .or l r) = some (u, all) ∧ isTrue u = (isTrue v || isTrue w) := by
  cases hv : isTrue v with
  | false =>
    rw [evalC_binary hl (by rw [decides, hv]) hr]
    refine ⟨truth (isTrue v || isTrue w), calls ++ more, rfl, ?_⟩
    rw [isTrue_truth, hv]
  | true =>
    refine ⟨truth true, calls, ?_, isTrue_truth true⟩
    rw [evalC, hl]
    simp [decides, hv]

/-- The alternative is tested and the test is true. -/
def AlternativeTrue (env : Env) (val : CExpr) (pattern : AstNode) : Prop :=
  ∃ test w more, cAlternativeTest val pattern = some test ∧ evalC env test = some (w, more) ∧
    isTrue w = true

/-- An arm is taken when its first pattern or one of its alternatives
accepts the value. -/
theorem evalC_alternatives {cond : CExpr} {v : CValue} (hcond : evalC env cond = some (v, calls))
    (patterns : List AstNode)
    (hdef : ∀ p ∈ patterns, ∃ test w more, cAlternativeTest val p = some test ∧
      evalC env test = some (w, more)) :
    ∃ e u all, cAlternatives val cond patterns = some e ∧ evalC env e = some (u, all) ∧
      (isTrue u = true ↔ isTrue v = true ∨ ∃ p ∈ patterns, AlternativeTrue env val p) := by
  induction patterns generalizing cond v calls with
  | nil => exact ⟨cond, v, calls, rfl, hcond, by simp⟩
  | cons p patterns ih =>
    obtain ⟨test, w, more, htest, hw⟩ := hdef p List.mem_cons_self
    obtain ⟨u, all, hu, htrue⟩ := evalC_or hcond hw
    obtain ⟨e, u', all', he, hev, hiff⟩ := ih hu fun q hq => hdef q (List.mem_cons_of_mem _ hq)
    have hp : AlternativeTrue env val p ↔ isTrue w = true := by
      constructor
      · rintro ⟨test', w', more', htest', hw', htrue'⟩
        rw [htest] at htest'
        obtain rfl := Option.some.inj htest'
        rw [hw] at hw'
        cases hw'
        exact htrue'
      · exact fun h => ⟨test, w, more, htest, hw, h⟩
    refine ⟨e, u', all', ?_, hev, ?_⟩
    · rw [cAlternatives, htest]
      exact he
    · rw [hiff, htrue, Bool.or_eq_true, or_assoc, ← hp]
      simp only [List.mem_cons, exists_eq_or_imp]

/-- The test for a first pattern. -/
theorem evalC_patternTest (inclusive : Bool) {a b : UInt64} (hval : evalC env val = some (y, calls)) :
    ∃ test v more, cPatternTest val (rangeNode inclusive (.literalInt a false)
        (.literalInt b false)) = some test ∧ evalC env test = some (v, more) ∧
      (isTrue v = true ↔ (a.toNat : Int) ≤ y.val ∧ y.val ≤ b.toNat) := by
  have ha := a.toNat_lt
  have hb := b.toNat_lt
  obtain ⟨va, heva, hva, hta⟩ := @evalC_constant env a.toNat (by omega)
  obtain ⟨vb, hevb, hvb, htb⟩ := @evalC_constant env b.toNat (by omega)
  have hge := evalC_relation .ge (fun v w => v ≥ w) hval (fun _ _ => rfl)
    (fun _ => rfl) heva (by omega) (hta ▸ constantType_signed _)
  have hle := evalC_relation .le (fun v w => v ≤ w) hval (fun _ _ => rfl)
    (fun _ => rfl) hevb (by omega) (htb ▸ constantType_signed _)
  obtain ⟨v, more, hv, htrue⟩ := evalC_and hge hle
  refine ⟨_, v, more, ?_, hv, ?_⟩
  · cases inclusive with
    | false => rfl
    | true => rfl
  · rw [htrue, hva, hvb, Bool.and_eq_true, decide_eq_true_eq, decide_eq_true_eq]

/-- The sum that an alternative is compared with. -/
theorem evalC_sum {a b : UInt64} :
    evalC env (.binary .add (.constant a.toNat) (.constant b.toNat)) =
      (compute ((constantType a.toNat).join (constantType b.toNat)) (a.toNat + b.toNat)).map
        (·, []) := by
  have ha := a.toNat_lt
  have hb := b.toNat_lt
  obtain ⟨va, heva, hva, hta⟩ := @evalC_constant env a.toNat (by omega)
  obtain ⟨vb, hevb, hvb, htb⟩ := @evalC_constant env b.toNat (by omega)
  have hadd : evalBinary .add va vb = compute (va.type.join vb.type) (va.val + vb.val) :=
    arithmetic_eq (.inl (by omega))
  rw [hva, hvb, hta, htb] at hadd
  rw [evalC_binary heva rfl hevb, hadd]
  rfl

/-- The test for an alternative, if the sum has a value. -/
theorem evalC_alternativeTest (inclusive : Bool) {a b : UInt64}
    (hval : evalC env val = some (y, calls)) :
    ∃ test, cAlternativeTest val (rangeNode inclusive (.literalInt a false)
        (.literalInt b false)) = some test ∧
      ((∃ v more, evalC env test = some (v, more) ∧
          compute ((constantType a.toNat).join (constantType b.toNat)) (a.toNat + b.toNat) ≠ none ∧
          (isTrue v = true ↔ y.val = a.toNat + b.toNat)) ∨
        (evalC env test = none ∧
          compute ((constantType a.toNat).join (constantType b.toNat)) (a.toNat + b.toNat) = none)) := by
  refine ⟨.binary .eq val (.binary .add (.constant a.toNat) (.constant b.toNat)), ?_, ?_⟩
  · cases inclusive with
    | false => rfl
    | true => rfl
  · have hsum := @evalC_sum env a b
    cases hev : compute ((constantType a.toNat).join (constantType b.toNat)) (a.toNat + b.toNat) with
    | none =>
      rw [hev] at hsum
      refine .inr ⟨?_, rfl⟩
      rw [evalC, hval]
      simp [decides, hsum]
    | some v =>
      rw [hev] at hsum
      obtain ⟨hv, htype⟩ := compute_signed hev
        (CType.join_signed (constantType_signed _) (constantType_signed _))
      have heq := evalC_relation .eq (fun v w => v = w) hval (fun _ _ => rfl)
        (fun _ => rfl) hsum (by omega)
        (htype ▸ CType.join_signed (constantType_signed _) (constantType_signed _))
      refine .inl ⟨_, _, heq, Option.some_ne_none v, ?_⟩
      rw [isTrue_truth, decide_eq_true_eq, hv]

end

/-! ## §2 Patterns -/

/-- The test accepts exactly the values in the range `a..b` or `a..=b`,
whatever the value and its type. -/
def PatternRight (place : RangePlace) (inclusive : Bool) (a b : UInt64) : Prop :=
  ∀ (env : Env) (val : CExpr) (x : CValue) (calls : List Call),
    evalC env val = some (x, calls) → x.type ≠ .int128 →
    ∃ test v more,
      rangeTest place val (rangeNode inclusive (.literalInt a false) (.literalInt b false)) =
        some test ∧
      evalC (testEnv place env x) test = some (v, more) ∧
      (isTrue v = true ↔ InRange inclusive a.toNat b.toNat x.val)

def isAlternative : RangePlace → Bool
  | .stmtAlternative | .exprAlternative => true
  | .stmtPattern | .exprPattern => false

/-- The ranges that mean what they say at a place. -/
def PatternKept (place : RangePlace) (inclusive : Bool) (a b : UInt64) : Prop :=
  if isAlternative place then
    if inclusive then (a = 0 ∧ b = 0) ∨ (2 ^ 64 ≤ a.toNat + b.toNat ∧ b < a)
    else 2 ^ 64 ≤ a.toNat + b.toNat ∧ b ≤ a
  else if inclusive then place = .exprPattern ∨ b < a ∨ b.toNat < 2 ^ 63
  else b < a

-- the equations, before the proofs that share them
section
attribute [local simp] PatternKept
end

/-- The value is in the memory of the test, and the test sees it. -/
theorem evalC_tested {env : Env} {val : CExpr} {x : CValue} {calls : List Call} (place : RangePlace)
    (hval : evalC env val = some (x, calls)) :
    ∃ e calls, (rangeTest place val = if isAlternative place then cAlternativeTest e
      else cPatternTest e) ∧
      evalC (testEnv place env x) e = some (testedValue place x, calls) := by
  cases place with
  | stmtPattern => exact ⟨matchVal, [], rfl, rfl⟩
  | stmtAlternative => exact ⟨matchVal, [], rfl, rfl⟩
  | exprPattern => exact ⟨val, calls, rfl, hval⟩
  | exprAlternative => exact ⟨val, calls, rfl, hval⟩

theorem val_bounds {x : CValue} (hx : x.type ≠ .int128) :
    -9223372036854775808 ≤ x.val ∧ x.val ≤ 18446744073709551615 := by
  obtain ⟨hlower, hupper⟩ := x.fits
  cases htype : x.type with
  | int128 => exact absurd htype hx
  | _ =>
    rw [htype] at hlower hupper
    simp only [CType.lower, CType.upper] at hlower hupper
    omega

theorem testedValue_val (place : RangePlace) (x : CValue) :
    (testedValue place x).val =
      if place = .stmtPattern ∨ place = .stmtAlternative then x.val % 18446744073709551616
      else x.val := by
  cases place with
  | stmtPattern => exact CType.wrap_ulong x.val
  | stmtAlternative => exact CType.wrap_ulong x.val
  | exprPattern => rfl
  | exprAlternative => rfl

theorem patternRight_pattern {place : RangePlace} {inclusive : Bool} {a b : UInt64}
    (hplace : isAlternative place = false) :
    PatternRight place inclusive a b ↔ ∀ x : CValue, x.type ≠ .int128 →
      ((a.toNat ≤ (testedValue place x).val ∧ (testedValue place x).val ≤ b.toNat) ↔
        InRange inclusive a.toNat b.toNat x.val) := by
  constructor
  · intro h x hx
    have hval : evalC ⟨fun _ => x, fun _ => 0⟩ (.ident []) = some (x, []) := rfl
    obtain ⟨test, v, more, htest, hv, hiff⟩ := h _ _ x [] hval hx
    obtain ⟨e, calls, he, heval⟩ := evalC_tested place hval
    obtain ⟨test', v', more', htest', hv', hiff'⟩ := evalC_patternTest inclusive
      (a := a) (b := b) heval
    rw [he, hplace, if_neg Bool.false_ne_true, htest'] at htest
    obtain rfl := Option.some.inj htest
    rw [hv'] at hv
    cases hv
    exact hiff'.symm.trans hiff
  · intro h env val x calls hval hx
    obtain ⟨e, calls, he, heval⟩ := evalC_tested place hval
    obtain ⟨test, v, more, htest, hv, hiff⟩ := evalC_patternTest inclusive
      (a := a) (b := b) heval
    refine ⟨test, v, more, ?_, hv, hiff.trans (h x hx)⟩
    rw [he, hplace, if_neg Bool.false_ne_true, htest]

theorem patternRight_alternative {place : RangePlace} {inclusive : Bool} {a b : UInt64}
    (hplace : isAlternative place = true) :
    PatternRight place inclusive a b ↔
      compute ((constantType a.toNat).join (constantType b.toNat)) (a.toNat + b.toNat) ≠ none ∧
      ∀ x : CValue, x.type ≠ .int128 →
        ((testedValue place x).val = a.toNat + b.toNat ↔
          InRange inclusive a.toNat b.toNat x.val) := by
  constructor
  · intro h
    have hall : ∀ x : CValue, x.type ≠ .int128 →
        compute ((constantType a.toNat).join (constantType b.toNat)) (a.toNat + b.toNat) ≠ none ∧
        ((testedValue place x).val = a.toNat + b.toNat ↔
          InRange inclusive a.toNat b.toNat x.val) := by
      intro x hx
      have hval : evalC ⟨fun _ => x, fun _ => 0⟩ (.ident []) = some (x, []) := rfl
      obtain ⟨test, v, more, htest, hv, hiff⟩ := h _ _ x [] hval hx
      obtain ⟨e, calls, he, heval⟩ := evalC_tested place hval
      obtain ⟨test', htest', hcase⟩ := evalC_alternativeTest inclusive
        (a := a) (b := b) heval
      rw [he, hplace, if_pos rfl, htest'] at htest
      obtain rfl := Option.some.inj htest
      obtain ⟨v', more', hv', hsum, hiff'⟩ | ⟨hnone, -⟩ := hcase
      · rw [hv'] at hv
        cases hv
        exact ⟨hsum, hiff'.symm.trans hiff⟩
      · rw [hnone] at hv
        cases hv
    exact ⟨(hall (truth true) (by decide)).1, fun x hx => (hall x hx).2⟩
  · rintro ⟨hsum, h⟩ env val x calls hval hx
    obtain ⟨e, calls, he, heval⟩ := evalC_tested place hval
    obtain ⟨test, htest, hcase⟩ := evalC_alternativeTest inclusive
      (a := a) (b := b) heval
    obtain ⟨v, more, hv, -, hiff⟩ | ⟨-, hnone⟩ := hcase
    · refine ⟨test, v, more, ?_, hv, hiff.trans (h x hx)⟩
      rw [he, hplace, if_pos rfl, htest]
    · exact absurd hnone hsum

theorem ofWord_val (w : UInt64) : (ofWord w).val = w.toNat := by
  have hw := w.toNat_lt
  show CType.ulong.wrap w.toNat = w.toNat
  rw [CType.wrap_ulong]
  omega

theorem ofWord_type (w : UInt64) : (ofWord w).type ≠ .int128 := CType.noConfusion

theorem testedValue_ofWord (place : RangePlace) (w : UInt64) :
    (testedValue place (ofWord w)).val = w.toNat := by
  have hw := w.toNat_lt
  rw [testedValue_val, ofWord_val]
  split <;> omega

theorem sum_fits {a b : UInt64} (h : 2 ^ 64 ≤ a.toNat + b.toNat) :
    compute ((constantType a.toNat).join (constantType b.toNat)) (a.toNat + b.toNat) ≠ none := by
  have ha := a.toNat_lt
  have hb := b.toNat_lt
  have hlarge : ∀ n : Nat, 2 ^ 63 ≤ n → constantType n = .int128 := by
    intro n hn
    unfold constantType
    rw [if_neg, if_neg]
    · simp only [CType.Fits, CType.lower, CType.upper]
      omega
    · simp only [CType.Fits, CType.lower, CType.upper]
      omega
  have hjoin : (constantType a.toNat).join (constantType b.toNat) = .int128 := by
    obtain h63 | h63 : 2 ^ 63 ≤ a.toNat ∨ 2 ^ 63 ≤ b.toNat := by omega
    · rw [hlarge _ h63]
      cases constantType b.toNat <;> rfl
    · rw [hlarge _ h63, CType.join_comm]
      cases constantType a.toNat <;> rfl
  rw [hjoin, compute_of_fits (by simp only [CType.Fits, CType.lower, CType.upper]; omega)]
  exact Option.some_ne_none _

/-- An alternative means its range when both are just zero, or when the sum
is too large for a word and the range is empty. -/
theorem alternativeKept_iff {place : RangePlace} {inclusive : Bool} {a b : UInt64}
    (hplace : isAlternative place = true) :
    PatternKept place inclusive a b ↔ (a.toNat = 0 ∧ b.toNat = 0 ∧ inclusive = true) ∨
      (2 ^ 64 ≤ a.toNat + b.toNat ∧
        ¬ (a.toNat ≤ b.toNat ∧ (inclusive = false → a.toNat ≠ b.toNat))) := by
  rw [PatternKept, if_pos hplace]
  cases inclusive with
  | false =>
    simp only [if_neg Bool.false_ne_true, UInt64.le_iff_toNat_le]
    constructor
    · rintro ⟨hsum, hle⟩
      exact .inr ⟨hsum, fun h => h.2 trivial (by omega)⟩
    · rintro (⟨-, -, hfalse⟩ | ⟨hsum, hnot⟩)
      · cases hfalse
      · exact ⟨hsum, by_contra fun hlt => hnot ⟨by omega, fun _ => by omega⟩⟩
  | true =>
    simp only [if_pos, UInt64.lt_iff_toNat_lt, ← UInt64.toNat_inj]
    constructor
    · rintro (⟨ha, hb⟩ | ⟨hsum, hlt⟩)
      · exact .inl ⟨ha, hb, trivial⟩
      · exact .inr ⟨hsum, fun h => by omega⟩
    · rintro (⟨ha, hb, -⟩ | ⟨hsum, hnot⟩)
      · exact .inl ⟨ha, hb⟩
      · exact .inr ⟨hsum, by_contra fun hge => hnot ⟨by omega, Bool.noConfusion⟩⟩

theorem inRange_iff {inclusive : Bool} {a b x : Int} :
    InRange inclusive a b x ↔ a ≤ x ∧ x ≤ b ∧ (inclusive = false → x ≠ b) := by
  cases inclusive with
  | false =>
    simp only [InRange, if_neg Bool.false_ne_true, forall_const]
    omega
  | true => simp [InRange]

theorem patternRight_iff (place : RangePlace) (inclusive : Bool) (a b : UInt64) :
    PatternRight place inclusive a b ↔ PatternKept place inclusive a b := by
  have ha := a.toNat_lt
  have hb := b.toNat_lt
  unfold PatternKept
  cases hplace : isAlternative place with
  | false =>
    rw [if_neg Bool.false_ne_true, patternRight_pattern hplace]
    cases inclusive with
    | false =>
      rw [if_neg Bool.false_ne_true, UInt64.lt_iff_toNat_lt]
      constructor
      · intro h
        have hiff := h (ofWord b) (ofWord_type b)
        rw [testedValue_ofWord, ofWord_val] at hiff
        simp only [InRange, if_neg Bool.false_ne_true] at hiff
        omega
      · intro hlt x hx
        simp only [InRange, if_neg Bool.false_ne_true]
        omega
    | true =>
      rw [if_pos rfl, UInt64.lt_iff_toNat_lt]
      constructor
      · intro h
        by_contra hnot
        rw [not_or, not_or] at hnot
        obtain ⟨hexpr, hle, hlarge⟩ := hnot
        -- the word `b` is also the value of a negative `long`
        have hfits : CType.long.Fits ((b.toNat : Int) - 18446744073709551616) := by
          simp only [CType.Fits, CType.lower, CType.upper]
          omega
        have hiff := h ⟨.long, _, hfits⟩ CType.noConfusion
        rw [testedValue_val] at hiff
        have hstmt : place = .stmtPattern ∨ place = .stmtAlternative := by
          cases place with
          | stmtPattern => exact .inl rfl
          | stmtAlternative => exact .inr rfl
          | exprPattern => exact absurd rfl hexpr
          | exprAlternative => cases hplace
        rw [if_pos hstmt] at hiff
        simp only [InRange, if_pos] at hiff
        omega
      · intro h x hx
        have hbounds := val_bounds hx
        simp only [InRange, if_pos]
        rw [testedValue_val]
        obtain rfl | h := h
        · exact Iff.rfl
        · split <;> omega
  | true =>
    have hkept := @alternativeKept_iff place inclusive a b hplace
    rw [PatternKept, hplace] at hkept
    rw [hkept, patternRight_alternative hplace]
    constructor
    · rintro ⟨hsum, h⟩
      by_cases hword : a.toNat + b.toNat < 2 ^ 64
      · have hadd : (a + b).toNat = a.toNat + b.toNat := by
          rw [UInt64.toNat_add, Nat.mod_eq_of_lt hword]
        have hat := h (ofWord (a + b)) (ofWord_type _)
        have hzero := h (ofWord 0) (ofWord_type _)
        rw [testedValue_ofWord, ofWord_val, hadd, inRange_iff] at hat
        rw [testedValue_ofWord, ofWord_val, UInt64.toNat_zero, inRange_iff] at hzero
        have hrange := hat.mp (by omega)
        have hzeroIn := hzero.mpr ⟨by omega, by omega, fun hinc => by
          have := hrange.2.2 hinc
          omega⟩
        refine .inl ⟨by omega, by omega, ?_⟩
        cases inclusive with
        | false => exact absurd (by omega) (hrange.2.2 rfl)
        | true => rfl
      · have hat := h (ofWord a) (ofWord_type _)
        rw [testedValue_ofWord, ofWord_val, inRange_iff] at hat
        refine .inr ⟨by omega, fun hin => ?_⟩
        have := hat.mpr ⟨by omega, by omega, fun hinc => by have := hin.2 hinc; omega⟩
        omega
    · intro h
      refine ⟨?_, fun x hx => ?_⟩
      · obtain ⟨hazero, hbzero, -⟩ | ⟨hsum, -⟩ := h
        · rw [hazero, hbzero]
          decide
        · exact sum_fits hsum
      · have hbounds := val_bounds hx
        rw [inRange_iff, testedValue_val]
        obtain ⟨hazero, hbzero, hinc⟩ | ⟨hsum, hempty⟩ := h
        · rw [hazero, hbzero, hinc]
          simp only [Bool.true_eq_false, false_implies, and_true]
          split <;> omega
        · refine iff_of_false ?_ fun hin => hempty ⟨by omega, fun hinc => ?_⟩
          · split <;> omega
          · have := hin.2.2 hinc
            omega

/-! ## §3 Loops -/

theorem toNat_toWord (v : Int) : (toWord v).toNat = (v % 18446744073709551616).toNat := by
  have hnonneg := Int.emod_nonneg v (b := 18446744073709551616) (by decide)
  have hlt := Int.emod_lt_of_pos v (b := 18446744073709551616) (by decide)
  rw [toWord, CType.wrap_ulong, UInt64.toNat_ofNat_of_lt' (show _ < 18446744073709551616 by omega)]

theorem toWord_succ (v : Int) : toWord (v + 1) = toWord v + 1 := by
  rw [← UInt64.toNat_inj, UInt64.toNat_add, toNat_toWord, toNat_toWord, UInt64.toNat_one]
  omega

/-- One step of the counter brings the end one step nearer. -/
theorem size_succ {rangeEnd : UInt64} {n : Nat} {a : Int}
    (hn : n + 1 = rangeEnd.toNat - (toWord a).toNat) :
    n = rangeEnd.toNat - (toWord (a + 1)).toNat := by
  have hend := rangeEnd.toNat_lt
  rw [toWord_succ, UInt64.toNat_add, UInt64.toNat_one]
  omega

theorem toWord_succ_ne (v : Int) : toWord (v + 1) ≠ toWord v := by
  rw [toWord_succ, Ne, ← UInt64.toNat_inj, UInt64.toNat_add, UInt64.toNat_one]
  have := (toWord v).toNat_lt
  omega

section

variable {σ : Type} {body : σ → UInt64 → σ × BodyExit}

/-- Two walks from the same start visit the same values when they are as
long, or when the body leaves both. -/
theorem visits_eq_iff {n m : Nat} {a : Int} {s : σ} :
    visits body s (wordsFrom a n) = visits body s (wordsFrom a m) ↔
      n = m ∨ Leaves body s (wordsFrom a (min n m)) := by
  induction n generalizing m a s with
  | zero =>
    cases m with
    | zero => simp
    | succ m => simp [wordsFrom, visits, Leaves]
  | succ n ih =>
    cases m with
    | zero => simp [wordsFrom, visits, Leaves]
    | succ m =>
      rw [wordsFrom, wordsFrom, Nat.succ_min_succ, wordsFrom, visits, visits, Leaves,
        List.cons_inj_right]
      match body s (toWord a) with
      | (_, .leave) => simp
      | (s', .continueLoop) => simpa using ih
      | (s', .fallThrough) => simpa using ih

/-- The loop from `a` on visits the words up to the end. -/
theorem whileRange_visits {rangeEnd : UInt64} {n : Nat} {a : Int} {s : σ}
    (hn : n = rangeEnd.toNat - (toWord a).toNat) (h : NoContinue body s (wordsFrom a n)) :
    ∃ fuel, whileRange body rangeEnd fuel (toWord a) s =
      some (visits body s (wordsFrom a n)) := by
  induction n generalizing a s with
  | zero =>
    refine ⟨1, ?_⟩
    rw [whileRange, if_neg (by rw [UInt64.lt_iff_toNat_lt]; omega)]
    rfl
  | succ n ih =>
    have hlt : toWord a < rangeEnd := by
      rw [UInt64.lt_iff_toNat_lt]
      omega
    rw [wordsFrom, NoContinue] at h
    rw [wordsFrom, visits]
    match hbody : body s (toWord a), h with
    | (_, .leave), _ =>
      refine ⟨1, ?_⟩
      rw [whileRange, if_pos hlt, hbody]
    | (s', .fallThrough), h =>
      obtain ⟨fuel, hrun⟩ := ih (size_succ hn) h
      refine ⟨fuel + 1, ?_⟩
      rw [whileRange, if_pos hlt, hbody, ← toWord_succ]
      dsimp only
      rw [hrun]
      rfl

theorem whileRange_head {rangeEnd i : UInt64} {fuel : Nat} {s : σ} {values : List UInt64}
    (hlt : i < rangeEnd) (h : whileRange body rangeEnd fuel i s = some values) :
    ∃ rest, values = i :: rest := by
  cases fuel with
  | zero => cases h
  | succ fuel =>
    rw [whileRange, if_pos hlt] at h
    split at h
    · exact ⟨[], (Option.some.inj h).symm⟩
    · obtain ⟨rest, -, hrest⟩ := Option.map_eq_some_iff.mp h
      exact ⟨rest, hrest.symm⟩
    · obtain ⟨rest, -, hrest⟩ := Option.map_eq_some_iff.mp h
      exact ⟨rest, hrest.symm⟩

/-- A loop that visits the values of some walk from `a` on met no
`continue`, and its own walk visits them. -/
theorem noContinue_of_whileRange {rangeEnd : UInt64} {n m fuel : Nat} {a : Int} {s : σ}
    (hn : n = rangeEnd.toNat - (toWord a).toNat)
    (h : whileRange body rangeEnd fuel (toWord a) s = some (visits body s (wordsFrom a m))) :
    NoContinue body s (wordsFrom a n) ∧
      visits body s (wordsFrom a n) = visits body s (wordsFrom a m) := by
  induction n generalizing a s fuel m with
  | zero =>
    cases fuel with
    | zero => cases h
    | succ fuel =>
      rw [whileRange, if_neg (by rw [UInt64.lt_iff_toNat_lt]; omega)] at h
      exact ⟨trivial, Option.some.inj h⟩
  | succ n ih =>
    have hlt : toWord a < rangeEnd := by
      rw [UInt64.lt_iff_toNat_lt]
      omega
    cases fuel with
    | zero => cases h
    | succ fuel =>
      rw [whileRange, if_pos hlt] at h
      cases m with
      | zero =>
        rw [wordsFrom, visits] at h
        match hbody : body s (toWord a), h with
        | (_, .leave), h => simp at h
        | (s', .continueLoop), h => simp at h
        | (s', .fallThrough), h => simp at h
      | succ m =>
        rw [wordsFrom, visits] at h
        rw [wordsFrom, wordsFrom, NoContinue, visits, visits]
        match hbody : body s (toWord a), h with
        | (_, .leave), h => exact ⟨trivial, rfl⟩
        | (s', .continueLoop), h =>
          -- the same word comes again, not the next one
          exfalso
          simp only [Option.map_eq_some_iff, List.cons.injEq, true_and] at h
          obtain ⟨rest, hrest, rfl⟩ := h
          obtain ⟨more, hmore⟩ := whileRange_head hlt hrest
          cases m with
          | zero => cases hmore
          | succ m => exact toWord_succ_ne a (List.cons.inj hmore).1
        | (s', .fallThrough), h =>
          simp only [Option.map_eq_some_iff, List.cons.injEq, true_and] at h
          obtain ⟨rest, hrest, rfl⟩ := h
          rw [← toWord_succ] at hrest
          obtain ⟨hno, heq⟩ := ih (size_succ hn) hrest
          exact ⟨hno, congrArg (toWord a :: ·) heq⟩

/-- The loop runs its body for the integers in the range, in order. -/
def LoopRight (r : RangeLoop) (body : σ → UInt64 → σ × BodyExit) (s : σ) : Prop :=
  ∃ fuel, cForRange r.env r.iterable body fuel s = some (visits body s r.values)

/-- The ranges that have as many integers as the loop has words: the ends
have the same sign, or both ways there is nothing; and an inclusive range is
empty. -/
def RangeKept (inclusive : Bool) (a b : Int) : Prop :=
  (inclusive = true → b < a) ∧ ((a < 0 ↔ b < 0) ∨ b + 2 ^ 64 ≤ a)

/-- No iteration of the loop's walk ends with `continue`, and the walk is
that of the range, unless the body leaves the loop on the part that they
share. -/
def LoopKept (r : RangeLoop) (body : σ → UInt64 → σ × BodyExit) (s : σ) : Prop :=
  NoContinue body s (wordsFrom r.start.val r.walkSize) ∧
    (RangeKept r.inclusive r.start.val r.stop.val ∨
      Leaves body s (wordsFrom r.start.val
        (min r.walkSize (rangeSize r.inclusive r.start.val r.stop.val))))

theorem rangeKept_iff {inclusive : Bool} {a b : Int} (ha : Integer64 a) (hb : Integer64 b) :
    (toWord b).toNat - (toWord a).toNat = rangeSize inclusive a b ↔ RangeKept inclusive a b := by
  unfold Integer64 at ha hb
  rw [toNat_toWord, toNat_toWord, rangeSize, RangeKept]
  cases inclusive with
  | false =>
    simp only [Bool.false_eq_true, false_implies, true_and, if_false]
    omega
  | true =>
    simp only [true_implies, if_true]
    omega

theorem exists_eval {env : Env} {node : AstNode} {v : CValue}
    (h : ((cEmitExpr node).bind (evalC env)).map (·.1) = some v) :
    ∃ e calls, cEmitOperand (some node) = some e ∧ evalC env e = some (v, calls) := by
  obtain ⟨p, hp, rfl⟩ := Option.map_eq_some_iff.mp h
  obtain ⟨e, he, hev⟩ := Option.bind_eq_some_iff.mp hp
  exact ⟨e, p.2, he, hev⟩

theorem cForRange_eq (r : RangeLoop) (fuel : Nat) (s : σ) :
    cForRange r.env r.iterable body fuel s =
      whileRange body (toWord r.stop.val) fuel (toWord r.start.val) s := by
  obtain ⟨l, calls, hl, hevl⟩ := exists_eval r.left_eval
  obtain ⟨e, more, he, heve⟩ := exists_eval r.right_eval
  unfold cForRange RangeLoop.iterable rangeNode rangeOp
  cases r.inclusive with
  | false => simp [hl, hevl, he, heve]
  | true => simp [hl, hevl, he, heve]

theorem loopRight_iff (r : RangeLoop) (s : σ) : LoopRight r body s ↔ LoopKept r body s := by
  unfold LoopRight LoopKept RangeLoop.values
  simp only [cForRange_eq]
  rw [← rangeKept_iff r.start_word r.stop_word, ← RangeLoop.walkSize, ← visits_eq_iff]
  constructor
  · rintro ⟨fuel, hrun⟩
    exact noContinue_of_whileRange rfl hrun
  · rintro ⟨hno, heq⟩
    obtain ⟨fuel, hrun⟩ := @whileRange_visits _ _ (toWord r.stop.val) _ _ _ rfl hno
    exact ⟨fuel, hrun.trans (congrArg some heq)⟩

end

/-! ## §4 The meaning of a range -/

/-- A loop over a range, and a range in a match, mean the range exactly in
the cases of `LoopKept` and `PatternKept`. -/
theorem range_meaning_iff {σ : Type} (r : RangeLoop) (body : σ → UInt64 → σ × BodyExit) (s : σ)
    (place : RangePlace) (inclusive : Bool) (a b : UInt64) :
    (LoopRight r body s ↔ LoopKept r body s) ∧
      (PatternRight place inclusive a b ↔ PatternKept place inclusive a b) :=
  ⟨loopRight_iff r s, patternRight_iff place inclusive a b⟩

/-- `0..=3` -/
def zeroToThree : RangeLoop where
  env := ⟨fun _ => truth true, fun _ => 0⟩
  inclusive := true
  left := .literalInt 0 false
  right := .literalInt 3 false
  start := convert .int 0
  stop := convert .int 3
  left_eval := rfl
  right_eval := rfl
  start_word := by decide
  stop_word := by decide

/-- The loop over `0..=3` stops before 3, and the pattern `0..3` of a match
statement accepts 3. -/
theorem range_ends_disagree :
    cForRange zeroToThree.env zeroToThree.iterable (fun s _ => (s, .fallThrough)) 5 () =
        some [0, 1, 2] ∧
      zeroToThree.values = [0, 1, 2, 3] ∧
      ¬ LoopRight zeroToThree (fun s _ => (s, .fallThrough)) () ∧
      ∃ test v, rangeTest .stmtPattern (.ident [])
          (rangeNode false (.literalInt 0 false) (.literalInt 3 false)) = some test ∧
        evalC (withMatchVal zeroToThree.env (ofWord 3)) test = some (v, []) ∧ isTrue v = true ∧
        ¬ InRange false 0 3 (ofWord 3).val := by
  refine ⟨by decide, by decide, ?_, ?_⟩
  · rw [loopRight_iff]
    rintro ⟨-, hkept | hleaves⟩
    · exact absurd (hkept.1 rfl) (by decide)
    · have hwalk : zeroToThree.walkSize = 3 := by decide
      rw [hwalk] at hleaves
      exact hleaves
  · refine ⟨_, _, rfl, rfl, by decide, ?_⟩
    rw [inRange_iff]
    exact fun h => h.2.2 rfl (by decide)

end Aether.CTranspiler
