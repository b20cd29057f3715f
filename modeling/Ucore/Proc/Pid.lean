import Mathlib.Data.Finset.Card
import Mathlib.Data.Int.Interval

/-!
# Process numbers (`get_pid` of `lab8/kern/process/proc.c`)

`get_pid` keeps the last number it gave, `last_pid`, and a number `next_safe` up to which no live
process has one of the following numbers.  Where these are used up it looks at all processes again.
-/

namespace Ucore.Proc

def MAX_PROCESS : ℤ := 4096

def MAX_PID : ℤ := MAX_PROCESS * 2

/-- How a pass over `proc_list` ends. -/
inductive PidScan
  | done (lastPid nextSafe : ℤ)
  /-- `goto repeat` -/
  | again (lastPid : ℤ)

/-- The rest of a pass, over the pids that are still to be seen. -/
def pidScan : List ℤ → ℤ → ℤ → PidScan
  | [], lastPid, nextSafe => .done lastPid nextSafe
  | pid :: pids, lastPid, nextSafe =>
    if pid = lastPid then
      if lastPid + 1 ≥ nextSafe then
        .again (if lastPid + 1 ≥ MAX_PID then 1 else lastPid + 1)
      else pidScan pids (lastPid + 1) nextSafe
    else if pid > lastPid ∧ nextSafe > pid then pidScan pids lastPid pid
    else pidScan pids lastPid nextSafe

/-- At most `n` passes. -/
def pidRepeat (pids : List ℤ) : ℕ → ℤ → Option (ℤ × ℤ)
  | 0, _ => none
  | n + 1, lastPid =>
    match pidScan pids lastPid MAX_PID with
    | .done lastPid nextSafe => some (lastPid, nextSafe)
    | .again lastPid => pidRepeat pids n lastPid

/-- More passes are never needed. -/
def maxPasses : ℕ := 2 * MAX_PID.toNat

/-- `get_pid`, for the pids of the processes in `proc_list`: the new `last_pid`, which it returns, and
the new `next_safe`. -/
def getPid (pids : List ℤ) (lastPid nextSafe : ℤ) : Option (ℤ × ℤ) :=
  if lastPid + 1 ≥ MAX_PID then pidRepeat pids maxPasses 1
  else if lastPid + 1 ≥ nextSafe then pidRepeat pids maxPasses (lastPid + 1)
  else some (lastPid + 1, nextSafe)

variable {pids : List ℤ} {lastPid nextSafe f : ℤ} {n : ℕ}

/-- No live process has a pid from `lo` up to `hi`. -/
def NoneFrom (pids : List ℤ) (lo hi : ℤ) : Prop := ∀ pid ∈ pids, pid < lo ∨ hi ≤ pid

/-- The invariant of `last_pid` and `next_safe` between the calls. -/
structure PidOk (pids : List ℤ) (lastPid nextSafe : ℤ) : Prop where
  pos : 1 ≤ lastPid
  safe : nextSafe ≤ MAX_PID
  gap : NoneFrom pids (lastPid + 1) nextSafe

/-- What a pass that reaches the end has found. -/
structure Fresh (pids : List ℤ) (lastPid nextSafe : ℤ) : Prop where
  pos : 1 ≤ lastPid
  lt : lastPid < nextSafe
  safe : nextSafe ≤ MAX_PID
  free : NoneFrom pids lastPid nextSafe

theorem Fresh.notMem (h : Fresh pids lastPid nextSafe) : lastPid ∉ pids := by
  intro hmem
  have hlt := h.lt
  have hfree := h.free lastPid hmem
  omega

/-- The invariant holds with the new pid among the others. -/
theorem Fresh.pidOk (h : Fresh pids lastPid nextSafe) :
    PidOk (lastPid :: pids) lastPid nextSafe := by
  refine ⟨h.pos, h.safe, ?_⟩
  intro pid hpid
  rcases List.mem_cons.mp hpid with rfl | hpid
  · exact Or.inl (Int.lt_succ pid)
  · exact (h.free pid hpid).imp_left fun hlt => hlt.trans (Int.lt_succ _)

/-- Fewer processes. -/
theorem PidOk.mono {pids' : List ℤ} (h : PidOk pids lastPid nextSafe) (hsub : pids' ⊆ pids) :
    PidOk pids' lastPid nextSafe :=
  ⟨h.pos, h.safe, fun pid hpid => h.gap pid (hsub hpid)⟩

/-- The end of a pass that has seen the pids `seen`. -/
theorem pidScan_spec (pids seen : List ℤ) (hpos : 1 ≤ lastPid) (hlt : lastPid < nextSafe)
    (hsafe : nextSafe ≤ MAX_PID) (hseen : NoneFrom seen lastPid nextSafe) :
    match pidScan pids lastPid nextSafe with
    | .done l n => Fresh (seen ++ pids) l n
    | .again l => 1 ≤ l ∧ l < MAX_PID ∧ (l = 1 ∨ lastPid < l) := by
  induction pids generalizing seen lastPid nextSafe with
  | nil => exact ⟨hpos, hlt, hsafe, by rwa [List.append_nil]⟩
  | cons pid pids ih =>
    have hnext : ∀ {l n : ℤ}, 1 ≤ l → l < n → n ≤ MAX_PID → lastPid ≤ l → n ≤ nextSafe →
        (pid < l ∨ n ≤ pid) → match pidScan pids l n with
          | .done l n => Fresh (seen ++ pid :: pids) l n
          | .again l => 1 ≤ l ∧ l < MAX_PID ∧ (l = 1 ∨ lastPid < l) := by
      intro l n hpos' hlt' hsafe' hl hn hpid
      have hrest := ih (seen ++ [pid]) hpos' hlt' hsafe' (by
        intro x hx
        rcases List.mem_append.mp hx with hx | hx
        · exact (hseen x hx).imp (lt_of_lt_of_le · hl) (le_trans hn)
        · rwa [List.mem_singleton.mp hx])
      rw [List.append_assoc, List.singleton_append] at hrest
      cases hscan : pidScan pids l n with
      | done l' n' =>
        rw [hscan] at hrest
        exact hrest
      | again l' =>
        rw [hscan] at hrest
        exact ⟨hrest.1, hrest.2.1, hrest.2.2.imp_right (lt_of_le_of_lt hl)⟩
    rw [pidScan]
    by_cases heq : pid = lastPid
    · rw [if_pos heq]
      by_cases hge : lastPid + 1 ≥ nextSafe
      · rw [if_pos hge]
        dsimp only
        by_cases hmax : lastPid + 1 ≥ MAX_PID
        · rw [if_pos hmax]
          exact ⟨le_rfl, by decide, Or.inl rfl⟩
        · rw [if_neg hmax]
          exact ⟨by omega, by omega, Or.inr (by omega)⟩
      · rw [if_neg hge]
        exact hnext (by omega) (by omega) hsafe (by omega) le_rfl (by omega)
    · rw [if_neg heq]
      by_cases hbetween : pid > lastPid ∧ nextSafe > pid
      · rw [if_pos hbetween]
        exact hnext hpos (by omega) (by omega) le_rfl (by omega) (Or.inr le_rfl)
      · rw [if_neg hbetween]
        exact hnext hpos hlt hsafe le_rfl le_rfl (by omega)

/-- A pass from below a free number does not get past it. -/
theorem pidScan_le (hf : f ∉ pids) (hmax : f < MAX_PID) (hle : lastPid ≤ f)
    (hpos : 1 ≤ lastPid) : match pidScan pids lastPid nextSafe with
      | .done l _ => l ≤ f
      | .again l => lastPid < l ∧ l ≤ f := by
  induction pids generalizing lastPid nextSafe with
  | nil => exact hle
  | cons pid pids ih =>
    have hne : pid ≠ f := fun heq => hf (heq ▸ List.mem_cons_self)
    have hrest := fun h => hf (List.mem_cons_of_mem _ h)
    rw [pidScan]
    by_cases heq : pid = lastPid
    · rw [if_pos heq]
      have hlt : lastPid + 1 ≤ f := by omega
      by_cases hge : lastPid + 1 ≥ nextSafe
      · rw [if_pos hge, if_neg (by omega)]
        exact ⟨Int.lt_succ lastPid, hlt⟩
      · rw [if_neg hge]
        have hpass := @ih (lastPid + 1) nextSafe hrest hlt (by omega)
        cases hscan : pidScan pids (lastPid + 1) nextSafe with
        | done l n =>
          rw [hscan] at hpass
          exact hpass
        | again l =>
          rw [hscan] at hpass
          exact ⟨by omega, hpass.2⟩
    · rw [if_neg heq]
      by_cases hbetween : pid > lastPid ∧ nextSafe > pid
      · rw [if_pos hbetween]
        exact ih hrest hle hpos
      · rw [if_neg hbetween]
        exact ih hrest hle hpos

/-! ### The passes end -/

theorem pidRepeat_fresh (hpos : 1 ≤ lastPid) (hlt : lastPid < MAX_PID) {r : ℤ × ℤ}
    (hr : pidRepeat pids n lastPid = some r) : Fresh pids r.1 r.2 := by
  induction n generalizing lastPid with
  | zero => exact nomatch hr
  | succ n ih =>
    have hscan := pidScan_spec pids [] hpos hlt le_rfl fun pid h =>
      absurd h List.not_mem_nil
    rw [pidRepeat] at hr
    split at hr
    case h_1 l m heq =>
      rw [heq] at hscan
      cases hr
      exact hscan
    case h_2 l heq =>
      rw [heq] at hscan
      exact ih hscan.1 hscan.2.1 hr

/-- From below a free number, every pass but the last gets on. -/
theorem pidRepeat_of_le (hf : f ∉ pids) (hmax : f < MAX_PID) (hle : lastPid ≤ f)
    (hpos : 1 ≤ lastPid) (hn : f - lastPid < n) : (pidRepeat pids n lastPid).isSome := by
  induction n generalizing lastPid with
  | zero => omega
  | succ n ih =>
    have hscan := @pidScan_le pids lastPid MAX_PID f hf hmax hle hpos
    rw [pidRepeat]
    split
    case h_1 => rfl
    case h_2 l heq =>
      rw [heq] at hscan
      exact ih hscan.2 (by omega) (by omega)

/-- From above it, the passes come to the first number again. -/
theorem pidRepeat_isSome (hf : f ∉ pids) (hfpos : 1 ≤ f) (hmax : f < MAX_PID)
    (hpos : 1 ≤ lastPid) (hlt : lastPid < MAX_PID) (hn : MAX_PID - lastPid + f ≤ n) :
    (pidRepeat pids n lastPid).isSome := by
  induction n generalizing lastPid with
  | zero => omega
  | succ n ih =>
    have hscan := pidScan_spec pids [] hpos hlt le_rfl fun pid h =>
      absurd h List.not_mem_nil
    rw [pidRepeat]
    split
    case h_1 => rfl
    case h_2 l heq =>
      rw [heq] at hscan
      rcases hscan.2.2 with hone | hgt
      · exact pidRepeat_of_le hf hmax (by omega) hscan.1 (by omega)
      · exact ih hscan.1 hscan.2.1 (by omega)

/-- With fewer processes than numbers, one is free. -/
theorem exists_free (hlen : (pids.length : ℤ) < MAX_PID - 1) :
    ∃ f, 1 ≤ f ∧ f < MAX_PID ∧ f ∉ pids := by
  have hcard : pids.toFinset.card < (Finset.Ico (1 : ℤ) MAX_PID).card := by
    have hle := pids.toFinset_card_le
    rw [Int.card_Ico]
    omega
  obtain ⟨f, hf, hnot⟩ := Finset.exists_mem_notMem_of_card_lt_card hcard
  obtain ⟨hpos, hlt⟩ := Finset.mem_Ico.mp hf
  exact ⟨f, hpos, hlt, fun h => hnot (List.mem_toFinset.mpr h)⟩

/-- **`get_pid`** ends, and its pid is new. -/
theorem getPid_ok (hok : PidOk pids lastPid nextSafe) (hlen : (pids.length : ℤ) < MAX_PID - 1) :
    ∃ l n, getPid pids lastPid nextSafe = some (l, n) ∧ Fresh pids l n := by
  obtain ⟨f, hfpos, hmax, hf⟩ := exists_free hlen
  have hconst : MAX_PID = 8192 := rfl
  have hpasses : (maxPasses : ℤ) = 16384 := rfl
  have hpos := hok.pos
  have hrepeat : ∀ last, 1 ≤ last → last < MAX_PID →
      ∃ l n, pidRepeat pids maxPasses last = some (l, n) ∧ Fresh pids l n := by
    intro last hlast hlt
    obtain ⟨r, hr⟩ := Option.isSome_iff_exists.mp (pidRepeat_isSome (n := maxPasses) hf hfpos hmax
      hlast hlt (by omega))
    exact ⟨r.1, r.2, hr, pidRepeat_fresh hlast hlt hr⟩
  rw [getPid]
  split
  case isTrue => exact hrepeat 1 le_rfl (by decide)
  case isFalse hle =>
    split
    case isTrue => exact hrepeat (lastPid + 1) (by omega) (by omega)
    case isFalse hlt =>
      exact ⟨_, _, rfl, by omega, by omega, hok.safe, hok.gap⟩

end Ucore.Proc
