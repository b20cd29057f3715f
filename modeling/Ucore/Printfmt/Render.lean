import Mathlib.Data.List.GetD
import Mathlib.Data.List.TakeWhile
import Ucore.Printfmt.Number

/-!
# The text of a format

`render` is the meaning of a format as a sequence of characters: a `%` with flags and a conversion behind it is
replaced by the output of the conversion; any other `%` is ordinary text, and so is what stands behind it.

`vprintfmt` reads the format character by character and, when a sequence turns out to be no conversion, goes back
to the last `%`.  Between this `%` and the character that is no flag there is no other `%`, so it comes back to
where the sequence started (`stepBack_eq`).

**`vprintfmt_iff`**: it comes back with the text of the format, and reads nothing but the format and the zero
that ends it, unless it comes to a `%e` with the smallest `int`, which has no negation: there it reads
`error_string` outside of the table.
-/

namespace Ucore.Printfmt

/-! ### Formats -/

/-- The value of the digits of a width or a precision. -/
def numberValue (env : Env) (precision : ℤ) (ds : List UInt8) : ℤ :=
  ds.foldl (fun precision ch =>
    int32 env (int32 env (int32 env (precision * 10) + ch.toNat) - (chr '0').toNat)) precision

/-- The flags at the start of a sequence: the flags, the number of the next argument, and what is behind them. -/
def scan (env : Env) (arg : ℕ → Arg) (f : Flags) (ap : ℕ) : List UInt8 → Flags × ℕ × List UInt8
  | [] => (f, ap, [])
  | ch :: s =>
    match flagChar env arg f ap ch with
    | some (f, ap) => scan env arg f ap s
    | none =>
      if startsNumber ch then
        scan env arg (f.processPrecision (numberValue env 0 (ch :: s.takeWhile isDigit))) ap
          (s.dropWhile isDigit)
      else (f, ap, ch :: s)
termination_by s => s.length
decreasing_by
  · exact Nat.lt_succ_self _
  · exact Nat.lt_succ_of_le (List.dropWhile_suffix isDigit).length_le

theorem length_scan_le (env : Env) (arg : ℕ → Arg) (f : Flags) (ap : ℕ) (s : List UInt8) :
    (scan env arg f ap s).2.2.length ≤ s.length := by
  fun_induction scan env arg f ap s with
  | case1 => exact Nat.le_refl _
  | case2 f ap ch s f' ap' hflag ih => exact Nat.le_succ_of_le ih
  | case3 f ap ch s hflag hstart ih =>
    exact Nat.le_succ_of_le (ih.trans (List.dropWhile_suffix isDigit).length_le)
  | case4 => exact Nat.le_refl _

/-- The text of `%e`. -/
def errorText (env : Env) (a : Arg) : List ℤ :=
  let err := errorIndex env a
  match if err > MAXERROR then some none else errorString err with
  | none => []
  | some none =>
    (chars ['e', 'r', 'r', 'o', 'r', ' ']).map (fun ch => (ch.toNat : ℤ)) ++
      (putInt env Flags.start (getint ⟨BitVec.ofInt 64 err, []⟩ 0)).getD []
  | some (some p) => putStr env Flags.start p

def isConversion (ch : UInt8) : Bool := ch == chr 'e' || CONVERSIONS.contains ch

/-- The text of a conversion, and the number of the argument after it. -/
def output (env : Env) (arg : ℕ → Arg) (f : Flags) (ap : ℕ) (ch : UInt8) : List ℤ × ℕ :=
  if ch = chr 'e' then (errorText env (arg ap), ap + 1)
  else (convert env arg f ap ch).getD ([], ap)

/-- The text of a format.  The sequences that are not recognized, or end with the format, are printed literally:
a `%`, and what stands behind it as ordinary text. -/
def render (env : Env) (arg : ℕ → Arg) (ap : ℕ) : List UInt8 → List ℤ
  | [] => []
  | ch :: s =>
    if ch = chr '%' then
      match _hscan : scan env arg Flags.start ap s with
      | (f, ap', c :: rest) =>
        if isConversion c then
          (output env arg f ap' c).1 ++ render env arg (output env arg f ap' c).2 rest
        else ((chr '%').toNat : ℤ) :: render env arg ap' s
      | (_, ap', []) => ((chr '%').toNat : ℤ) :: render env arg ap' s
    else (ch.toNat : ℤ) :: render env arg ap s
termination_by s => s.length
decreasing_by
  · have := length_scan_le env arg Flags.start ap s
    rw [_hscan] at this
    exact Nat.lt_succ_of_le (Nat.le_of_succ_le this)
  · exact Nat.lt_succ_self _
  · exact Nat.lt_succ_self _
  · exact Nat.lt_succ_self _

/-- The argument of a `%e` that makes `error_string` be read outside of the table. -/
def Arg.Overruns (env : Env) (a : Arg) : Prop := a.int = -2 ^ 31 ∧ env.overflow (2 ^ 31) < 0

/-- The format comes to a `%e` with such an argument. -/
def Overruns (env : Env) (arg : ℕ → Arg) (ap : ℕ) : List UInt8 → Prop
  | [] => False
  | ch :: s =>
    if ch = chr '%' then
      match _hscan : scan env arg Flags.start ap s with
      | (f, ap', c :: rest) =>
        if isConversion c then
          (c = chr 'e' ∧ (arg ap').Overruns env) ∨ Overruns env arg (output env arg f ap' c).2 rest
        else Overruns env arg ap' s
      | (_, ap', []) => Overruns env arg ap' s
    else Overruns env arg ap s
termination_by s => s.length
decreasing_by
  · have := length_scan_le env arg Flags.start ap s
    rw [_hscan] at this
    exact Nat.lt_succ_of_le (Nat.le_of_succ_le this)
  · exact Nat.lt_succ_self _
  · exact Nat.lt_succ_self _
  · exact Nat.lt_succ_self _

variable {env : Env} {arg : ℕ → Arg} {f : Flags} {ap a q : ℕ} {m : Format} {s : List UInt8} {ch : UInt8}

theorem render_char (h : ch ≠ chr '%') :
    render env arg ap (ch :: s) = (ch.toNat : ℤ) :: render env arg ap s := by
  rw [render, if_neg h]

/-- **Literal sequences.**  Behind the flags stands no conversion. -/
theorem render_literal (h : ∀ c ∈ (scan env arg Flags.start ap s).2.2.head?, isConversion c = false) :
    render env arg ap (chr '%' :: s) =
      ((chr '%').toNat : ℤ) :: render env arg (scan env arg Flags.start ap s).2.1 s := by
  rw [render, if_pos rfl]
  split
  · rename_i heq
    rw [heq] at h ⊢
    rw [if_neg (by rw [h _ rfl]; exact Bool.false_ne_true)]
  · rename_i heq
    rw [heq]

theorem overruns_char (h : ch ≠ chr '%') : Overruns env arg ap (ch :: s) ↔ Overruns env arg ap s := by
  rw [Overruns, if_neg h]

theorem overruns_literal (h : ∀ c ∈ (scan env arg Flags.start ap s).2.2.head?, isConversion c = false) :
    Overruns env arg ap (chr '%' :: s) ↔ Overruns env arg (scan env arg Flags.start ap s).2.1 s := by
  rw [Overruns, if_pos rfl]
  split
  · rename_i heq
    rw [heq] at h ⊢
    rw [if_neg (by rw [h _ rfl]; exact Bool.false_ne_true)]
  · rename_i heq
    rw [heq]

theorem overruns_recognized {ap' : ℕ} {c : UInt8} {rest : List UInt8}
    (hscan : scan env arg Flags.start ap s = (f, ap', c :: rest)) (hc : isConversion c = true) :
    Overruns env arg ap (chr '%' :: s) ↔
      c = chr 'e' ∧ (arg ap').Overruns env ∨ Overruns env arg (output env arg f ap' c).2 rest := by
  rw [Overruns, if_pos rfl]
  split
  · rename_i heq
    cases heq.symm.trans hscan
    rw [if_pos hc]
  · rename_i heq
    cases heq.symm.trans hscan

/-! ### Loops that come back -/

/-- With enough turns the result is `r`. -/
def Returns {α : Type} (g : ℕ → Option α) (r : α) : Prop := ∃ enough, ∀ turns ≥ enough, g turns = some r

theorem Returns.succ {α β : Type} {g : ℕ → Option α} {h : ℕ → Option β} {r : α} {r' : β}
    (hr : Returns h r') (heq : ∀ turns, h turns = some r' → g (turns + 1) = some r) : Returns g r := by
  obtain ⟨enough, henough⟩ := hr
  refine ⟨enough + 1, fun turns hturns => ?_⟩
  obtain ⟨turns, rfl⟩ := Nat.exists_eq_add_one.2 (Nat.zero_lt_of_lt hturns)
  exact heq turns (henough turns (Nat.le_of_succ_le_succ hturns))

theorem Returns.of_succ {α : Type} {g : ℕ → Option α} {r : α} (h : ∀ turns, g (turns + 1) = some r) :
    Returns g r := by
  refine ⟨1, fun turns hturns => ?_⟩
  obtain ⟨turns, rfl⟩ := Nat.exists_eq_add_one.2 hturns
  exact h turns

/-- A turn in which two loops run. -/
theorem Returns.succ_of_two {α β γ : Type} {g : ℕ → Option α} {h : ℕ → Option β} {k : ℕ → Option γ} {r : α}
    {r' : β} {r'' : γ} (hr : Returns h r') (hr' : Returns k r'')
    (heq : ∀ turns, h turns = some r' → k turns = some r'' → g (turns + 1) = some r) : Returns g r := by
  obtain ⟨n, hn⟩ := hr
  obtain ⟨n', hn'⟩ := hr'
  refine ⟨max n n' + 1, fun turns hturns => ?_⟩
  obtain ⟨turns, rfl⟩ := Nat.exists_eq_add_one.2 (Nat.zero_lt_of_lt hturns)
  have hle : max n n' ≤ turns := Nat.le_of_succ_le_succ hturns
  exact heq turns (hn turns (le_of_max_le_left hle)) (hn' turns (le_of_max_le_right hle))

/-- The format `s`, which contains no zero, is at `a`, and a zero behind it. -/
def FormatAt (m : Format) (a : ℕ) : List UInt8 → Prop
  | [] => m a = some 0
  | ch :: s => m a = some ch ∧ ch ≠ 0 ∧ FormatAt m (a + 1) s

theorem FormatAt.drop (h : FormatAt m a s) (k : ℕ) (hk : k ≤ s.length) : FormatAt m (a + k) (s.drop k) := by
  induction k generalizing a s with
  | zero => exact h
  | succ k ih =>
    cases s with
    | nil => exact absurd hk (Nat.not_succ_le_zero k)
    | cons ch s =>
      have := ih h.2.2 (Nat.le_of_succ_le_succ hk)
      rwa [Nat.add_assoc, Nat.add_comm 1] at this

theorem FormatAt.get (h : FormatAt m a s) {i : ℕ} (hi : i < s.length) : m (a + i) = some s[i] := by
  have hdrop := h.drop i (Nat.le_of_lt hi)
  rw [List.drop_eq_getElem_cons hi] at hdrop
  exact hdrop.1

theorem scanDigits_step {bound : ℕ} {b : UInt8} (h : m q = some b) (precision : ℤ) :
    scanDigits env m (bound + 1) q ch precision =
      if isDigit b then scanDigits env m bound (q + 1) b (numberValue env precision [ch])
      else some (numberValue env precision [ch], q) := by
  rw [scanDigits, h]
  rfl

/-- The digits are read up to the first character that is no digit. -/
theorem scanDigits_returns (env : Env) (h : FormatAt m q s) (ch : UInt8) (precision : ℤ) :
    Returns (fun turns => scanDigits env m turns q ch precision)
      (numberValue env precision (ch :: s.takeWhile isDigit), q + (s.takeWhile isDigit).length) := by
  induction s generalizing q ch precision with
  | nil =>
    have h0 : isDigit 0 = false := by decide
    refine Returns.of_succ fun turns => ?_
    rw [scanDigits_step h, h0]
    rfl
  | cons b s ih =>
    by_cases hb : isDigit b = true
    · refine (ih h.2.2 b (numberValue env precision [ch])).succ fun turns hturns => ?_
      rw [scanDigits_step h.1, if_pos hb, hturns, List.takeWhile_cons_of_pos hb, List.length_cons,
        Nat.add_assoc, Nat.add_comm 1]
      rfl
    · refine Returns.of_succ fun turns => ?_
      rw [scanDigits_step h.1, if_neg hb, List.takeWhile_cons_of_neg hb]
      rfl

/-- A `%` at `a`, and no other one between it and `q`. -/
structure Escaped (m : Format) (a q : ℕ) : Prop where
  percent : m a = some (chr '%')
  lt : a < q
  between : ∀ i, a < i → i < q → ∃ c, m i = some c ∧ c ≠ chr '%'

theorem Escaped.start (h : m a = some (chr '%')) : Escaped m a (a + 1) :=
  ⟨h, Nat.lt_succ_self a, fun i h₁ h₂ => by omega⟩

theorem Escaped.extend (h : Escaped m a q) {k : ℕ}
    (hnew : ∀ i < k, ∃ c, m (q + i) = some c ∧ c ≠ chr '%') : Escaped m a (q + k) := by
  refine ⟨h.percent, Nat.lt_add_right k h.lt, fun i h₁ h₂ => ?_⟩
  by_cases hi : i < q
  · exact h.between i h₁ hi
  · obtain ⟨c, hc⟩ := hnew (i - q) (by omega)
    rw [Nat.add_sub_cancel' (by omega)] at hc
    exact ⟨c, hc⟩

theorem scanDigits_some {bound : ℕ} {r : ℤ × ℕ} {precision : ℤ} (h : FormatAt m q s)
    (hrun : scanDigits env m bound q ch precision = some r) :
    r = (numberValue env precision (ch :: s.takeWhile isDigit), q + (s.takeWhile isDigit).length) := by
  induction bound generalizing q s ch precision with
  | zero => cases hrun
  | succ bound ih =>
    cases s with
    | nil =>
      have h0 : isDigit 0 = false := by decide
      rw [scanDigits_step h, h0] at hrun
      exact (Option.some.inj hrun).symm
    | cons b s =>
      rw [scanDigits_step h.1] at hrun
      by_cases hb : isDigit b = true
      · rw [if_pos hb] at hrun
        rw [ih h.2.2 hrun, List.takeWhile_cons_of_pos hb, List.length_cons, Nat.add_assoc, Nat.add_comm 1]
        rfl
      · rw [if_neg hb] at hrun
        rw [List.takeWhile_cons_of_neg hb]
        exact (Option.some.inj hrun).symm

/-- Going back from `q` ends behind the `%`. -/
theorem stepBack_eq (h : Escaped m a q) {bound : ℕ} (hb : q - a ≤ bound) :
    stepBack m bound q = some (a + 1) := by
  induction bound generalizing q with
  | zero =>
    have := h.lt
    omega
  | succ bound ih =>
    have hlt := h.lt
    rw [stepBack]
    by_cases hq : q = a + 1
    · subst hq
      rw [Nat.add_sub_cancel, h.percent]
      simp
    · obtain ⟨c, hc, hne⟩ := h.between (q - 1) (by omega) (by omega)
      have hback : Escaped m a (q - 1) :=
        ⟨h.percent, by omega, fun i h₁ h₂ => h.between i h₁ (by omega)⟩
      rw [hc]
      show (if c ≠ chr '%' then _ else _) = _
      rw [if_pos hne]
      exact ih hback (by omega)

theorem stepBack_some (h : Escaped m a q) {bound r : ℕ} (hrun : stepBack m bound q = some r) : r = a + 1 := by
  induction bound generalizing q with
  | zero => cases hrun
  | succ bound ih =>
    have hlt := h.lt
    rw [stepBack] at hrun
    by_cases hq : q = a + 1
    · subst hq
      rw [Nat.add_sub_cancel, h.percent] at hrun
      simpa using hrun.symm
    · obtain ⟨c, hc, hne⟩ := h.between (q - 1) (by omega) (by omega)
      have hback : Escaped m a (q - 1) :=
        ⟨h.percent, by omega, fun i h₁ h₂ => h.between i h₁ (by omega)⟩
      rw [hc] at hrun
      change (if c ≠ chr '%' then _ else _) = _ at hrun
      rw [if_pos hne] at hrun
      exact ih hback hrun

theorem stepBack_returns (h : Escaped m a q) : Returns (fun bound => stepBack m bound q) (a + 1) :=
  ⟨q - a, fun _ hbound => stepBack_eq h hbound⟩

/-! ### The loop of `vprintfmt` -/

theorem loop_text {turns : ℕ} (h : m q = some ch) :
    vprintfmtLoop env (turns + 1) m arg .text q ap =
      if ch = chr '%' then vprintfmtLoop env turns m arg (.escape Flags.start) (q + 1) ap
      else if ch = 0 then some []
      else (vprintfmtLoop env turns m arg .text (q + 1) ap).map ((ch.toNat : ℤ) :: ·) := by
  rw [vprintfmtLoop, h]
  rfl

theorem loop_flag {turns : ℕ} {f' : Flags} {ap' : ℕ} (h : m q = some ch)
    (hflag : flagChar env arg f ap ch = some (f', ap')) :
    vprintfmtLoop env (turns + 1) m arg (.escape f) q ap =
      vprintfmtLoop env turns m arg (.escape f') (q + 1) ap' := by
  rw [vprintfmtLoop, h]
  simp only [Option.bind_eq_bind, Option.bind_some, hflag]

/-- At the character behind the flags. -/
theorem loop_escape {turns : ℕ} (h : m q = some ch) (hflag : flagChar env arg f ap ch = none)
    (hstart : startsNumber ch = false) :
    vprintfmtLoop env (turns + 1) m arg (.escape f) q ap =
      if ch = chr 'e' then
        (errorFormat env (arg ap)).bind fun r =>
          (vprintfmtLoop env turns (literal r.1) (fun _ => r.2) .text 0 0).bind fun out =>
            (vprintfmtLoop env turns m arg .text (q + 1) (ap + 1)).map (out ++ ·)
      else if CONVERSIONS.contains ch then
        (convert env arg f ap ch).bind fun out =>
          (vprintfmtLoop env turns m arg .text (q + 1) out.2).map (out.1 ++ ·)
      else (stepBack m turns q).bind fun fmt =>
        (vprintfmtLoop env turns m arg .text fmt ap).map (((chr '%').toNat : ℤ) :: ·) := by
  rw [vprintfmtLoop, h]
  simp only [Option.bind_eq_bind, Option.bind_some, hflag, hstart, Bool.false_eq_true, if_false,
    Nat.add_sub_cancel]

theorem loop_number {turns : ℕ} (h : m q = some ch) (hflag : flagChar env arg f ap ch = none)
    (hstart : startsNumber ch = true) :
    vprintfmtLoop env (turns + 1) m arg (.escape f) q ap =
      (scanDigits env m turns (q + 1) ch 0).bind fun r =>
        vprintfmtLoop env turns m arg (.escape (f.processPrecision r.1)) r.2 ap := by
  rw [vprintfmtLoop, h]
  simp only [Option.bind_eq_bind, Option.bind_some, hflag, hstart, if_true]

theorem flagChar_percent (env : Env) (arg : ℕ → Arg) (f : Flags) (ap : ℕ) :
    flagChar env arg f ap (chr '%') = none := rfl

theorem ne_percent_of_flagChar {r : Flags × ℕ} (h : flagChar env arg f ap ch = some r) :
    ch ≠ chr '%' := by
  rintro rfl
  exact nomatch (flagChar_percent env arg f ap).symm.trans h

theorem ne_percent_of_isDigit (h : isDigit ch = true) : ch ≠ chr '%' := by
  rintro rfl
  exact absurd h (by decide)

theorem ne_percent_of_startsNumber (h : startsNumber ch = true) : ch ≠ chr '%' := by
  rintro rfl
  exact absurd h (by decide)

/-- The digits at the start of a format, and what is behind them. -/
theorem FormatAt.digits (h : FormatAt m q s) :
    (∀ i < (s.takeWhile isDigit).length, ∃ c, m (q + i) = some c ∧ c ≠ chr '%') ∧
      FormatAt m (q + (s.takeWhile isDigit).length) (s.dropWhile isDigit) := by
  have hle : (s.takeWhile isDigit).length ≤ s.length := (List.takeWhile_prefix isDigit).length_le
  constructor
  · intro i hi
    have hlt : i < s.length := hi.trans_le hle
    refine ⟨s[i], h.get hlt, ne_percent_of_isDigit ?_⟩
    rw [← (List.takeWhile_prefix isDigit).getElem hi]
    exact List.mem_takeWhile_imp (List.getElem_mem hi)
  · have heq : s.drop (s.takeWhile isDigit).length = s.dropWhile isDigit :=
      calc s.drop (s.takeWhile isDigit).length
          = (s.takeWhile isDigit ++ s.dropWhile isDigit).drop (s.takeWhile isDigit).length := by
            rw [List.takeWhile_append_dropWhile]
        _ = s.dropWhile isDigit := List.drop_left
    rw [← heq]
    exact h.drop _ hle

/-- Behind the flags stands no flag. -/
theorem scan_head {f' : Flags} {ap' : ℕ} {c : UInt8} {rest : List UInt8}
    (h : scan env arg f ap s = (f', ap', c :: rest)) :
    flagChar env arg f' ap' c = none ∧ startsNumber c = false := by
  fun_induction scan env arg f ap s with
  | case1 => exact nomatch (Prod.mk.inj (Prod.mk.inj h).2).2
  | case2 f ap ch s f₁ ap₁ hflag ih => exact ih h
  | case3 f ap ch s hflag hstart ih => exact ih h
  | case4 f ap ch s hflag hstart =>
    cases h
    exact ⟨hflag, Bool.eq_false_of_not_eq_true hstart⟩

/-- From `fmt` on the loop prints `out`. -/
def Prints (env : Env) (m : Format) (arg : ℕ → Arg) (mode : Mode) (fmt ap : ℕ) (out : List ℤ) : Prop :=
  Returns (fun turns => vprintfmtLoop env turns m arg mode fmt ap) out

/-- From `fmt` on the loop does not come back. -/
def Faults (env : Env) (m : Format) (arg : ℕ → Arg) (mode : Mode) (fmt ap : ℕ) : Prop :=
  ∀ turns, vprintfmtLoop env turns m arg mode fmt ap = none

theorem Faults.of_succ {mode : Mode} (h : ∀ turns, vprintfmtLoop env (turns + 1) m arg mode q ap = none) :
    Faults env m arg mode q ap := by
  intro turns
  cases turns with
  | zero => rw [vprintfmtLoop]
  | succ turns => exact h turns

/-- The loop comes to the character behind the flags. -/
theorem Prints.scan (he : Escaped m a q) (hs : FormatAt m q s) :
    ∃ q', FormatAt m q' (scan env arg f ap s).2.2 ∧ Escaped m a q' ∧
      (∀ out, Prints env m arg (.escape (scan env arg f ap s).1) q' (scan env arg f ap s).2.1 out →
        Prints env m arg (.escape f) q ap out) ∧
      (Faults env m arg (.escape (scan env arg f ap s).1) q' (scan env arg f ap s).2.1 →
        Faults env m arg (.escape f) q ap) := by
  fun_induction Printfmt.scan env arg f ap s generalizing q with
  | case1 => exact ⟨q, hs, he, fun out hout => hout, id⟩
  | case2 f ap ch s f' ap' hflag ih =>
    have he' : Escaped m a (q + 1) := he.extend fun i hi => by
      obtain rfl := Nat.lt_one_iff.1 hi
      exact ⟨ch, hs.1, ne_percent_of_flagChar hflag⟩
    obtain ⟨q', hs', heq', hret, hfault⟩ := ih he' hs.2.2
    refine ⟨q', hs', heq', fun out hout => ?_, fun hnever => .of_succ fun turns => ?_⟩
    · exact (hret out hout).succ fun turns hturns => (loop_flag hs.1 hflag).trans hturns
    · exact (loop_flag hs.1 hflag).trans (hfault hnever turns)
  | case3 f ap ch s hflag hstart ih =>
    have hfirst : Escaped m a (q + 1) := he.extend fun i hi => by
      obtain rfl := Nat.lt_one_iff.1 hi
      exact ⟨ch, hs.1, ne_percent_of_startsNumber hstart⟩
    obtain ⟨hdigits, hrest⟩ := hs.2.2.digits
    obtain ⟨q', hs', heq', hret, hfault⟩ := ih (hfirst.extend hdigits) hrest
    refine ⟨q', hs', heq', fun out hout => ?_, fun hnever => .of_succ fun turns => ?_⟩
    · refine (hret out hout).succ_of_two (scanDigits_returns env hs.2.2 ch 0) fun turns hloop hscan => ?_
      rw [loop_number hs.1 hflag hstart, hscan]
      simpa only [Option.bind_some] using hloop
    · rw [loop_number hs.1 hflag hstart, Option.bind_eq_none_iff]
      intro r hr
      obtain rfl := scanDigits_some hs.2.2 hr
      simpa only using hfault hnever turns
  | case4 f ap ch s hflag hstart => exact ⟨q, hs, he, fun out hout => hout, id⟩

theorem Prints.nil (h : m q = some 0) : Prints env m arg .text q ap [] := by
  refine Returns.of_succ fun turns => ?_
  rw [loop_text h, if_neg (by decide), if_pos rfl]

/-- Ordinary text. -/
theorem Prints.char {out : List ℤ} (h : m q = some ch) (hpercent : ch ≠ chr '%') (h0 : ch ≠ 0)
    (hout : Prints env m arg .text (q + 1) ap out) :
    Prints env m arg .text q ap ((ch.toNat : ℤ) :: out) := by
  refine hout.succ fun turns hturns => ?_
  rw [loop_text h, if_neg hpercent, if_neg h0, hturns]
  rfl

theorem Prints.percent {out : List ℤ} (h : m q = some (chr '%'))
    (hout : Prints env m arg (.escape Flags.start) (q + 1) ap out) : Prints env m arg .text q ap out := by
  refine hout.succ fun turns hturns => ?_
  rw [loop_text h, if_pos rfl, hturns]

theorem putNumber_some (env : Env) (f : Flags) (before : List ℤ) (num : BitVec 64) {base : ℕ}
    (hbase : 2 ≤ base) : ∃ out, putNumber env f before num base = some out := by
  rw [putNumber, printnum_eq hbase (lt_pow_base num hbase)]
  exact ⟨_, rfl⟩

theorem putInt_some (env : Env) (f : Flags) (num : BitVec 64) : ∃ out, putInt env f num = some out := by
  rw [putInt]
  split
  · exact putNumber_some env f _ _ (by decide)
  · exact putNumber_some env f _ _ (by decide)

/-- Every conversion comes back. -/
theorem convert_eq (h : CONVERSIONS.contains ch = true) :
    convert env arg f ap ch = some ((convert env arg f ap ch).getD ([], ap)) := by
  have hnumber : ∀ before num {base : ℕ}, 2 ≤ base →
      ∃ r, (putNumber env f before num base).map (·, ap + 1) = some r := by
    intro before num base hbase
    obtain ⟨out, hout⟩ := putNumber_some env f before num hbase
    exact ⟨(out, ap + 1), congrArg (Option.map (·, ap + 1)) hout⟩
  have hsome : ∃ r, convert env arg f ap ch = some r := by
    simp only [CONVERSIONS, chars, List.contains_eq_mem, List.map_cons, List.map_nil, List.mem_cons,
      List.not_mem_nil, or_false, decide_eq_true_eq] at h
    rcases h with rfl | rfl | rfl | rfl | rfl | rfl | rfl | rfl
    · exact ⟨_, rfl⟩
    · exact ⟨_, rfl⟩
    · obtain ⟨out, hout⟩ := putInt_some env f (getint (arg ap) f.lflag)
      exact ⟨(out, ap + 1), congrArg (Option.map (·, ap + 1)) hout⟩
    · exact hnumber _ _ (by decide)
    · exact hnumber _ _ (by decide)
    · exact hnumber _ _ (by decide)
    · exact hnumber _ _ (by decide)
    · exact ⟨_, rfl⟩
  obtain ⟨r, hr⟩ := hsome
  rw [hr]
  rfl

theorem Prints.conversion {out : List ℤ} (h : m q = some ch) (hflag : flagChar env arg f ap ch = none)
    (hstart : startsNumber ch = false) (he : ch ≠ chr 'e') (hc : CONVERSIONS.contains ch = true)
    (hout : Prints env m arg .text (q + 1) (output env arg f ap ch).2 out) :
    Prints env m arg (.escape f) q ap ((output env arg f ap ch).1 ++ out) := by
  rw [output, if_neg he] at hout ⊢
  refine hout.succ fun turns hturns => ?_
  rw [loop_escape h hflag hstart, if_neg he, if_pos hc, convert_eq hc, Option.bind_some, Option.getD_some,
    hturns]
  rfl

/-- A sequence that is no conversion. -/
theorem Prints.literal {out : List ℤ} (hesc : Escaped m a q) (h : m q = some ch)
    (hflag : flagChar env arg f ap ch = none) (hstart : startsNumber ch = false)
    (hc : isConversion ch = false) (hout : Prints env m arg .text (a + 1) ap out) :
    Prints env m arg (.escape f) q ap (((chr '%').toNat : ℤ) :: out) := by
  obtain ⟨he, hcontains⟩ := Bool.or_eq_false_iff.1 hc
  refine hout.succ_of_two (stepBack_returns hesc) fun turns hturns hback => ?_
  rw [loop_escape h hflag hstart, if_neg (beq_eq_false_iff_ne.1 he), hcontains, if_neg Bool.false_ne_true,
    hback, Option.bind_some, hturns]
  rfl

/-! ### Error messages -/

theorem formatAt_literal (h : 0 ∉ s) : FormatAt (literal s) 0 s := by
  have hdrop : ∀ n k, s.length = k + n → FormatAt (literal s) k (s.drop k) := by
    intro n
    induction n with
    | zero =>
      intro k hk
      rw [Nat.add_zero] at hk
      rw [← hk, List.drop_length]
      show literal s s.length = some 0
      rw [literal, if_pos (Nat.le_refl _), List.getD_eq_default _ _ (Nat.le_refl _)]
    | succ n ih =>
      intro k hk
      have hlt : k < s.length := by omega
      have hget : literal s k = some s[k] := by
        rw [literal, if_pos (Nat.le_of_lt hlt), List.getD_eq_getElem _ _ hlt]
      rw [List.drop_eq_getElem_cons hlt]
      have hne : s[k] ≠ 0 := fun h0 => h (h0 ▸ List.getElem_mem hlt)
      exact ⟨hget, hne, ih (k + 1) (by omega)⟩
  exact hdrop s.length 0 (Nat.zero_add _).symm

theorem Prints.chars {out : List ℤ} {pre : List UInt8} (h : FormatAt m q (pre ++ s))
    (hpre : chr '%' ∉ pre) (hout : Prints env m arg .text (q + pre.length) ap out) :
    Prints env m arg .text q ap (pre.map (fun ch => (ch.toNat : ℤ)) ++ out) := by
  induction pre generalizing q with
  | nil => exact hout
  | cons ch pre ih =>
    have hrest : Prints env m arg .text (q + 1) ap (pre.map (fun ch => (ch.toNat : ℤ)) ++ out) := by
      refine ih h.2.2 (fun hc => hpre (List.mem_cons_of_mem ch hc)) ?_
      rw [Nat.add_assoc, Nat.add_comm 1]
      exact hout
    exact Prints.char h.1 (fun heq => hpre (heq ▸ List.mem_cons_self)) h.2.1 hrest

/-- The formats of `%e` end with a conversion. -/
theorem Prints.last {c : UInt8} (h : FormatAt m q [chr '%', c])
    (hflag : flagChar env arg Flags.start ap c = none) (hstart : startsNumber c = false)
    (he : c ≠ chr 'e') (hc : CONVERSIONS.contains c = true) :
    Prints env m arg .text q ap (output env arg Flags.start ap c).1 := by
  refine Prints.percent h.1 ?_
  rw [← List.append_nil (output env arg Flags.start ap c).1]
  exact Prints.conversion h.2.2.1 hflag hstart he hc (Prints.nil h.2.2.2.2)

/-- The smallest `int` is the only one whose `err` is negative. -/
theorem errorIndex_neg_iff (env : Env) (a : Arg) : errorIndex env a < 0 ↔ a.Overruns env := by
  have hlo : -2 ^ 31 ≤ a.int := BitVec.le_toInt _
  have hhi : a.int < 2 ^ 31 := BitVec.toInt_lt
  rw [errorIndex, Arg.Overruns]
  by_cases hmin : a.int = -2 ^ 31
  · rw [hmin, if_pos (by decide), and_iff_right rfl, int32, if_neg (by decide)]
    rfl
  · refine iff_of_false ?_ fun h => hmin h.1
    split
    · rw [int32, if_pos (by omega)]
      omega
    · omega

theorem errorFormat_none (h : (arg ap).Overruns env) : errorFormat env (arg ap) = none := by
  have hneg := (errorIndex_neg_iff env (arg ap)).mpr h
  have hmax : ¬ errorIndex env (arg ap) > MAXERROR := fun hgt => absurd (hneg.trans' hgt) (by decide)
  rw [errorFormat, if_neg hmax, errorString, if_pos hneg]
  rfl

theorem errorText_prints (env : Env) (b : Arg) (h : ¬ b.Overruns env) :
    ∃ r, errorFormat env b = some r ∧
      Prints env (Printfmt.literal r.1) (fun _ => r.2) .text 0 0 (errorText env b) := by
  rw [← errorIndex_neg_iff] at h
  have hentry : ∃ o, (if errorIndex env b > MAXERROR then some none else errorString (errorIndex env b)) =
      some o := by
    by_cases hmax : errorIndex env b > MAXERROR
    · exact ⟨none, if_pos hmax⟩
    · have hlt : (errorIndex env b).toNat < ERROR_STRING.length := by
        have hlen : ERROR_STRING.length = 25 := rfl
        have hconst : MAXERROR = 24 := rfl
        omega
      rw [if_neg hmax, errorString, if_neg h, List.getElem?_eq_getElem hlt]
      exact ⟨_, rfl⟩
  obtain ⟨o, ho⟩ := hentry
  simp only [errorFormat, errorText, ho]
  generalize errorIndex env b = err
  cases o with
  | none =>
    let arg : ℕ → Arg := fun _ => ⟨BitVec.ofInt 64 err, []⟩
    obtain ⟨out, hout⟩ := putInt_some env Flags.start (getint (arg 0) 0)
    have hformat := formatAt_literal (s := Printfmt.chars ['e', 'r', 'r', 'o', 'r', ' ', '%', 'd']) (by decide)
    have hlast : Prints env _ arg .text 6 0 (output env arg Flags.start 0 (chr 'd')).1 :=
      Prints.last (hformat.drop 6 (by decide)) rfl rfl (by decide) (by decide)
    have heq : (output env arg Flags.start 0 (chr 'd')).1 = out :=
      congrArg (fun r => ((Option.map (fun out => (out, 1)) r).getD ([], 0)).1) hout
    rw [heq] at hlast
    have hint : putInt env Flags.start (getint ⟨BitVec.ofInt 64 err, []⟩ 0) = some out := hout
    refine ⟨_, rfl, ?_⟩
    simp only [hint]
    exact Prints.chars hformat (by decide) hlast
  | some p =>
    have hformat := formatAt_literal (s := Printfmt.chars ['%', 's']) (by decide)
    exact ⟨_, rfl, Prints.last hformat rfl rfl (by decide) (by decide)⟩

theorem Prints.error {out : List ℤ} (h : m q = some (chr 'e')) (hb : ¬ (arg ap).Overruns env)
    (hout : Prints env m arg .text (q + 1) (ap + 1) out) :
    Prints env m arg (.escape f) q ap (errorText env (arg ap) ++ out) := by
  obtain ⟨r, hr, hprints⟩ := errorText_prints env (arg ap) hb
  refine hout.succ_of_two hprints fun turns hturns herror => ?_
  rw [loop_escape h rfl rfl, if_pos rfl, hr, Option.bind_some, herror, Option.bind_some, hturns]
  rfl

/-! ### The whole format -/

theorem contains_of_isConversion (hc : isConversion ch = true) (he : ch ≠ chr 'e') :
    CONVERSIONS.contains ch = true :=
  (Bool.or_eq_true_iff.1 hc).resolve_left fun h => he (beq_iff_eq.1 h)

/-- A sequence that is recognized. -/
theorem Prints.recognized {out : List ℤ} {c : UInt8} (h : m q = some c)
    (hflag : flagChar env arg f ap c = none) (hstart : startsNumber c = false)
    (hc : isConversion c = true) (herror : c = chr 'e' → ¬ (arg ap).Overruns env)
    (hout : Prints env m arg .text (q + 1) (output env arg f ap c).2 out) :
    Prints env m arg (.escape f) q ap ((output env arg f ap c).1 ++ out) := by
  by_cases he : c = chr 'e'
  · subst he
    exact Prints.error h (herror rfl) hout
  · exact Prints.conversion h hflag hstart he (contains_of_isConversion hc he) hout

/-- The table is read outside of it here, or behind this conversion the loop does not come back. -/
theorem Faults.recognized {c : UInt8} (h : m q = some c) (hflag : flagChar env arg f ap c = none)
    (hstart : startsNumber c = false) (hc : isConversion c = true)
    (hfault : c = chr 'e' ∧ (arg ap).Overruns env ∨
      Faults env m arg .text (q + 1) (output env arg f ap c).2) :
    Faults env m arg (.escape f) q ap := by
  refine .of_succ fun turns => ?_
  rw [loop_escape h hflag hstart]
  by_cases he : c = chr 'e'
  · subst he
    rw [if_pos rfl]
    rcases hfault with ⟨-, hover⟩ | hrest
    · rw [errorFormat_none hover]
      rfl
    · have hnext : vprintfmtLoop env turns m arg .text (q + 1) (ap + 1) = none := hrest turns
      simp only [hnext, Option.map_none, Option.bind_fun_none]
  · have hcontains := contains_of_isConversion hc he
    have hnext := (hfault.resolve_left fun hand => he hand.1) turns
    rw [output, if_neg he] at hnext
    rw [if_neg he, if_pos hcontains, convert_eq hcontains, Option.bind_some, hnext]
    rfl

theorem Faults.char (h : m q = some ch) (hpercent : ch ≠ chr '%') (h0 : ch ≠ 0)
    (hrest : Faults env m arg .text (q + 1) ap) : Faults env m arg .text q ap := by
  refine .of_succ fun turns => ?_
  rw [loop_text h, if_neg hpercent, if_neg h0, hrest turns]
  rfl

theorem Faults.percent (h : m q = some (chr '%'))
    (hrest : Faults env m arg (.escape Flags.start) (q + 1) ap) : Faults env m arg .text q ap := by
  refine .of_succ fun turns => ?_
  rw [loop_text h, if_pos rfl, hrest turns]

theorem Faults.literal (hesc : Escaped m a q) (h : m q = some ch) (hflag : flagChar env arg f ap ch = none)
    (hstart : startsNumber ch = false) (hc : isConversion ch = false)
    (hrest : Faults env m arg .text (a + 1) ap) : Faults env m arg (.escape f) q ap := by
  obtain ⟨he, hcontains⟩ := Bool.or_eq_false_iff.1 hc
  refine .of_succ fun turns => ?_
  rw [loop_escape h hflag hstart, if_neg (beq_eq_false_iff_ne.1 he), hcontains, if_neg Bool.false_ne_true]
  refine Option.bind_eq_none_iff.mpr fun r hr => ?_
  rw [stepBack_some hesc hr, hrest turns]
  rfl

/-- **`vprintfmt`** prints the text of the format, or does not come back. -/
theorem render_prints (env : Env) (arg : ℕ → Arg) (ap : ℕ) (h : FormatAt m q s) :
    (¬ Overruns env arg ap s → Prints env m arg .text q ap (render env arg ap s)) ∧
      (Overruns env arg ap s → Faults env m arg .text q ap) := by
  fun_induction render env arg ap s generalizing q with
  | case1 =>
    rw [Overruns]
    exact ⟨fun _ => Prints.nil h, False.elim⟩
  | case2 ap s f ap' c rest hscan hc ih =>
    obtain ⟨q', hrest, -, hback, hnever⟩ := Prints.scan (Escaped.start h.1) h.2.2
    obtain ⟨hflag, hstart⟩ := scan_head hscan
    rw [hscan] at hrest hback hnever
    obtain ⟨hprints, hfaults⟩ := ih hrest.2.2
    rw [overruns_recognized hscan hc, not_or, not_and]
    refine ⟨fun hno => Prints.percent h.1 (hback _ ?_), fun hover => Faults.percent h.1 (hnever ?_)⟩
    · exact Prints.recognized hrest.1 hflag hstart hc hno.1 (hprints hno.2)
    · exact Faults.recognized hrest.1 hflag hstart hc (hover.imp_right hfaults)
  | case3 ap s f ap' c rest hscan hc ih =>
    obtain ⟨q', hrest, hesc, hback, hnever⟩ := Prints.scan (Escaped.start h.1) h.2.2
    obtain ⟨hflag, hstart⟩ := scan_head hscan
    rw [hscan] at hrest hback hnever
    have hc := Bool.eq_false_of_not_eq_true hc
    obtain ⟨hprints, hfaults⟩ := ih h.2.2
    rw [overruns_literal (by rw [hscan]; rintro _ ⟨⟩; exact hc), hscan]
    refine ⟨fun hno => Prints.percent h.1 (hback _ ?_), fun hover => Faults.percent h.1 (hnever ?_)⟩
    · exact Prints.literal hesc hrest.1 hflag hstart hc (hprints hno)
    · exact Faults.literal hesc hrest.1 hflag hstart hc (hfaults hover)
  | case4 ap s f ap' hscan ih =>
    obtain ⟨q', hrest, hesc, hback, hnever⟩ := Prints.scan (Escaped.start h.1) h.2.2
    rw [hscan] at hrest hback hnever
    obtain ⟨hprints, hfaults⟩ := ih h.2.2
    rw [overruns_literal (by rw [hscan]; nofun), hscan]
    refine ⟨fun hno => Prints.percent h.1 (hback _ ?_), fun hover => Faults.percent h.1 (hnever ?_)⟩
    · exact Prints.literal hesc hrest rfl rfl (by decide) (hprints hno)
    · exact Faults.literal hesc hrest rfl rfl (by decide) (hfaults hover)
  | case5 ap ch s hch ih =>
    obtain ⟨hprints, hfaults⟩ := ih h.2.2
    rw [overruns_char hch]
    exact ⟨fun hno => Prints.char h.1 hch h.2.1 (hprints hno), fun hover => Faults.char h.1 hch h.2.1 (hfaults hover)⟩

/-- It comes back with the text of the format if and only if `error_string` is read inside the table only. -/
theorem vprintfmt_iff (env : Env) (arg : ℕ → Arg) (h : FormatAt m q s) :
    (∃ enough, ∀ turns ≥ enough, vprintfmt env turns m q arg = some (render env arg 0 s)) ↔
      ¬ Overruns env arg 0 s := by
  obtain ⟨hprints, hfaults⟩ := render_prints env arg 0 h
  refine ⟨?_, hprints⟩
  rintro ⟨enough, henough⟩ hover
  exact nomatch (hfaults hover enough).symm.trans (henough enough le_rfl)

/-- **Numbers and formats.**  The output of `printnum` is the numeral behind as many pad characters as are missing
up to the width, whatever an overflow yields, exactly when the width minus the number of digits is in the range of
`int`.  `vprintfmt` comes back with the text of the format, in which a `%` without a conversion behind its flags is
a `%` and what stands behind it is text, and it reads nothing but the format and the zero that ends it, exactly when
it does not come to a `%e` with the smallest `int`, or this overflows to a value that is not negative. -/
theorem printnum_vprintfmt_iff (num : BitVec 64) (base : ℕ) (hbase : 2 ≤ base) (_hbase : base ≤ 16)
    (width : BitVec 32) (padc : ℤ) (env : Env) (arg : ℕ → Arg) (m : Format) (fmt : ℕ) (s : List UInt8)
    (hs : FormatAt m fmt s) :
    ((∀ overflow, printnum ⟨overflow⟩ 64 num.toNat base width.toInt padc =
        some (List.replicate (width.toInt - (numeral base num.toNat).length).toNat padc ++
          numeral base num.toNat)) ↔
      -2 ^ 31 ≤ width.toInt - (numeral base num.toNat).length) ∧
    ((∃ enough, ∀ turns ≥ enough, vprintfmt env turns m fmt arg = some (render env arg 0 s)) ↔
      ¬ Overruns env arg 0 s) ∧
    ∀ (ap : ℕ) (s : List UInt8),
      (∀ c ∈ (scan env arg Flags.start ap s).2.2.head?, isConversion c = false) →
      render env arg ap (chr '%' :: s) =
        ((chr '%').toNat : ℤ) :: render env arg (scan env arg Flags.start ap s).2.1 s :=
  ⟨printnum_iff num hbase width padc, vprintfmt_iff env arg hs, fun _ _ h => render_literal h⟩

/-- The number 255, and a format that ends in the middle of a sequence. -/
theorem printnum_vprintfmt_iff_truncated :
    (∀ overflow, printnum ⟨overflow⟩ 64 255 16 4 48 = some [48, 48, 102, 102]) ∧
      ∃ enough, ∀ turns ≥ enough, vprintfmt ⟨id⟩ turns (literal (chars ['a', '%', '-'])) 0
        (fun _ => ⟨0, []⟩) = some [97, 37, 45] := by
  obtain ⟨hnum, hformat, hliteral⟩ := printnum_vprintfmt_iff 255 16 (by decide) (by decide) 4 48
    ⟨id⟩ (fun _ => ⟨0, []⟩) (literal (chars ['a', '%', '-'])) 0 (chars ['a', '%', '-'])
    (formatAt_literal (by decide))
  have hscan : ∀ env arg, scan env arg Flags.start 0 [chr '-'] =
      ({ Flags.start with padc := chr '-' }, 0, []) := fun env arg => by simp [scan, flagChar]
  constructor
  · exact hnum.2 (by decide)
  · have htext : render ⟨id⟩ (fun _ => ⟨0, []⟩) 0 (chars ['a', '%', '-']) = [97, 37, 45] := by
      show render _ _ 0 [chr 'a', chr '%', chr '-'] = _
      rw [render_char (by decide), hliteral _ _ (by simp [hscan]), hscan, render_char (by decide), render]
      decide
    rw [← htext]
    refine hformat.2 fun hover => ?_
    change Overruns _ _ 0 [chr 'a', chr '%', chr '-'] at hover
    rw [overruns_char (by decide), overruns_literal (by simp [hscan]), hscan, overruns_char (by decide),
      Overruns] at hover
    exact hover

/-- Overflows that wrap around. -/
def wraps : Env := ⟨fun x => (BitVec.ofInt 32 x).toInt⟩

/-- The smallest width: if its decrement wraps around, there are pad characters before the digits.  And `%e` with
the smallest `int`: the loop does not come back. -/
theorem printnum_pads :
    (¬ ∀ (num : BitVec 64) (width : BitVec 32), ∀ overflow,
      printnum ⟨overflow⟩ 64 num.toNat 10 width.toInt 32 =
        some (List.replicate (width.toInt - (numeral 10 num.toNat).length).toNat 32 ++
          numeral 10 num.toNat)) ∧
    ∀ turns, vprintfmt wraps turns (literal (chars ['%', 'e'])) 0 (fun _ => ⟨0x80000000, []⟩) = none := by
  constructor
  · intro h
    have hten := h 10 (BitVec.intMin 32) wraps.overflow
    rw [printnum_eq (by decide) (lt_pow_base 10 (by decide)), padLoop_eq] at hten
    have hlen := congrArg List.length (List.append_cancel_right (Option.some.inj hten))
    rw [List.length_replicate, List.length_replicate] at hlen
    exact absurd hlen (by decide)
  · refine (render_prints wraps (fun _ => ⟨0x80000000, []⟩) 0 (formatAt_literal (by decide))).2 ?_
    have hscan : scan wraps (fun _ => ⟨0x80000000, []⟩) Flags.start 0 [chr 'e'] = (Flags.start, 0, [chr 'e']) := by
      rw [scan, show flagChar wraps (fun _ => ⟨0x80000000, []⟩) Flags.start 0 (chr 'e') = none from rfl]
      exact if_neg (by decide)
    exact (overruns_recognized hscan rfl).mpr (.inl ⟨rfl, by decide, by decide⟩)

end Ucore.Printfmt
