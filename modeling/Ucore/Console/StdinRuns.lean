import Ucore.Console.Stdin

/-!
# Runs of the console input device

The characters between `p_rpos` and `p_wpos` are the unread ones, and every step of the interrupt
handler or a reader is an operation of a queue with room for `STDIN_BUFSIZE` characters on them
(`step_ok`).  This needs a condition on `dev_stdin_write`: it stores the character before it checks for
room, so a character that arrives while the buffer is full takes the place of the oldest unread one.

* `console_input`: runs in which no such character differs from the one that it replaces.
* `full_buffer_is_overwritten`: a run in which one does.
-/

namespace Ucore.Console

open Fifo Function Transition

variable {π : Type*} {s : State π} {p : π} {c : UInt8}

/-- The unread characters. -/
def State.unread (s : State π) : List UInt8 :=
  (List.range (s.pWpos - s.pRpos)).map fun i => s.stdinBuffer ((s.pRpos + i) % STDIN_BUFSIZE)

/-- There is room for the character, or it is the one in its place. -/
def State.Fits (s : State π) (c : UInt8) : Prop :=
  s.pWpos - s.pRpos < STDIN_BUFSIZE ∨ s.stdinBuffer (s.pWpos % STDIN_BUFSIZE) = c

theorem State.length_unread (s : State π) : s.unread.length = s.pWpos - s.pRpos := by
  rw [State.unread, List.length_map, List.length_range]

theorem State.unread_cons (h : s.pRpos < s.pWpos) :
    s.unread = s.stdinBuffer (s.pRpos % STDIN_BUFSIZE) ::
      ({ s with pRpos := s.pRpos + 1 } : State π).unread := by
  obtain ⟨n, hn⟩ := Nat.exists_eq_add_of_lt h
  have h₁ : s.pWpos - s.pRpos = n + 1 := by omega
  have h₂ : s.pWpos - (s.pRpos + 1) = n := by omega
  rw [State.unread, State.unread, h₁, h₂, List.range_succ_eq_map, List.map_cons, List.map_map]
  congr 1
  apply List.map_congr_left
  intro i _
  show s.stdinBuffer ((s.pRpos + (i + 1)) % STDIN_BUFSIZE) =
    s.stdinBuffer ((s.pRpos + 1 + i) % STDIN_BUFSIZE)
  rw [show s.pRpos + (i + 1) = s.pRpos + 1 + i by omega]

theorem State.head_unread (h : s.pRpos < s.pWpos) :
    s.unread.head? = some (s.stdinBuffer (s.pRpos % STDIN_BUFSIZE)) := by
  rw [State.unread_cons h]
  rfl

/-! ### The loop of a reader -/

/-- The loop takes the first unread characters, and stops early only when there are no more. -/
theorem readLoop_spec (n : ℕ) (s : State π) : ∃ cs, s.unread = cs ++ (s.readLoop n).2.unread ∧
    s.readLoop n = (cs, { s with pRpos := s.pRpos + cs.length }) ∧ cs.length ≤ n ∧
    (cs.length < n → s.pWpos ≤ s.pRpos + cs.length) ∧ (0 < cs.length → s.pRpos + cs.length ≤ s.pWpos) := by
  induction n generalizing s with
  | zero => exact ⟨[], rfl, rfl, le_rfl, fun h => absurd h (lt_irrefl _), fun h => absurd h (lt_irrefl _)⟩
  | succ n ih =>
    by_cases hlt : s.pRpos < s.pWpos
    · obtain ⟨cs, hunread, hloop, hlen, hstop, hpos⟩ := ih { s with pRpos := s.pRpos + 1 }
      have hread : s.readLoop (n + 1) = (s.stdinBuffer (s.pRpos % STDIN_BUFSIZE) :: cs,
          { s with pRpos := s.pRpos + 1 + cs.length }) := by
        rw [State.readLoop, if_pos hlt, hloop]
      refine ⟨s.stdinBuffer (s.pRpos % STDIN_BUFSIZE) :: cs, ?_, ?_, ?_, ?_, ?_⟩
      · rw [State.unread_cons hlt, hunread, hread, hloop]
        rfl
      · rw [hread, List.length_cons, Nat.add_assoc, Nat.add_comm 1]
      · rw [List.length_cons]
        omega
      · intro h
        rw [List.length_cons] at h ⊢
        have := hstop (by omega)
        dsimp only at this
        omega
      · intro _
        rw [List.length_cons]
        rcases Nat.eq_zero_or_pos cs.length with h0 | h0
        · omega
        · have := hpos h0
          dsimp only at this
          omega
    · have hread : s.readLoop (n + 1) = ([], s) := by rw [State.readLoop, if_neg hlt]
      refine ⟨[], ?_, hread, Nat.zero_le _, ?_, fun h => absurd h (lt_irrefl _)⟩
      · rw [hread]
        rfl
      · intro _
        exact Nat.le_of_not_lt hlt

variable [DecidableEq π]

/-! ### Waking the readers -/

def Reader.wake (flags : BitVec 32) (r : Reader) : Reader :=
  { r with asleep := false, wakeupFlags := flags }

theorem wakeupWait_eq (flags : BitVec 32) : s.wakeupWait p flags = { s with
    waitQueue := s.waitQueue.erase p
    reader := update s.reader p ((s.reader p).map (Reader.wake flags)) } := by
  unfold State.wakeupWait State.wakeupProc
  dsimp only
  rw [update_self, update_idem, Option.map_map]
  rfl

theorem wakeup_foldl (flags : BitVec 32) (l : List π) (s : State π) :
    l.foldl (fun s p => s.wakeupWait p flags) s = { s with
      waitQueue := l.foldl List.erase s.waitQueue
      reader := fun p => if p ∈ l then (s.reader p).map (Reader.wake flags) else s.reader p } := by
  induction l generalizing s with
  | nil => simp
  | cons q l ih =>
    rw [List.foldl_cons, ih, wakeupWait_eq]
    congr 1
    funext p
    dsimp only
    by_cases hpq : p = q
    · rw [hpq, update_self, if_pos List.mem_cons_self]
      split
      · rw [Option.map_map]
        rfl
      · rfl
    · rw [update_of_ne hpq]
      simp only [List.mem_cons, hpq, false_or]

theorem foldl_erase_self (l : List π) : l.foldl List.erase l = [] := by
  induction l with
  | nil => rfl
  | cons p l ih =>
    rw [List.foldl_cons, List.erase_cons_head]
    exact ih

/-- All that wait are woken and taken off the queue. -/
theorem wakeupQueue_eq (flags : BitVec 32) (s : State π) : s.wakeupQueue flags = { s with
    waitQueue := []
    reader := fun p =>
      if p ∈ s.waitQueue then (s.reader p).map (Reader.wake flags) else s.reader p } := by
  rw [State.wakeupQueue, wakeup_foldl, foldl_erase_self]

/-! ### The invariant -/

/-- The buffer has room for the unread characters.  A process that called `schedule` is in the queue,
and then there are no unread characters, or it has been woken by one. -/
structure Ok (s : State π) : Prop where
  le : s.pRpos ≤ s.pWpos
  room : s.pWpos - s.pRpos ≤ STDIN_BUFSIZE
  nodup : s.waitQueue.Nodup
  waiting : ∀ p ∈ s.waitQueue, s.reader p ≠ none
  readers : ∀ p r, s.reader p = some r → p ∈ s.waitQueue ∧ r.wakeupFlags = WT_INTERRUPTED ∨
    p ∉ s.waitQueue ∧ r.asleep = false ∧ r.wakeupFlags = WT_KBD
  empty : s.waitQueue ≠ [] → s.pWpos ≤ s.pRpos

omit [DecidableEq π] in
theorem Ok.init : Ok (State.init : State π) :=
  ⟨le_rfl, Nat.zero_le _, List.nodup_nil, nofun, nofun, fun h => absurd rfl h⟩

omit [DecidableEq π] in
/-- A reader that is asleep is in the queue, and there are no unread characters. -/
theorem Ok.unread_of_asleep (h : Ok s) {r : Reader} (hp : s.reader p = some r)
    (hr : r.asleep = true) : s.unread = [] := by
  rcases h.readers p r hp with ⟨hmem, _⟩ | ⟨_, hawake, _⟩
  · have hempty := h.empty (List.ne_nil_of_mem hmem)
    rw [State.unread, Nat.sub_eq_zero_of_le hempty]
    rfl
  · rw [hawake] at hr
    exact nomatch hr

/-- The handler wakes every reader. -/
theorem Ok.woken (h : Ok s) (hc : c ≠ 0) {r : Reader}
    (hp : (s.devStdinWrite c).reader p = some r) : r.asleep = false ∧ r.wakeupFlags = WT_KBD := by
  have hreader : (s.devStdinWrite c).reader p =
      if p ∈ s.waitQueue then (s.reader p).map (Reader.wake WT_KBD) else s.reader p := by
    rw [State.devStdinWrite, if_pos hc, wakeupQueue_eq]
    split <;> rfl
  rw [hreader] at hp
  by_cases hmem : p ∈ s.waitQueue
  · rw [if_pos hmem] at hp
    obtain ⟨r', _, hr'⟩ := Option.map_eq_some_iff.mp hp
    rw [← hr']
    exact ⟨rfl, rfl⟩
  · rw [if_neg hmem] at hp
    exact ((h.readers p r hp).resolve_left fun hin => hmem hin.1).2

/-! ### Steps -/

/-- Waking the queue keeps the invariant, whatever the positions are. -/
theorem Ok.wakeupQueue (h : Ok s) {buffer : ℕ → UInt8} {wpos : ℕ} (hle : s.pRpos ≤ wpos)
    (hroom : wpos - s.pRpos ≤ STDIN_BUFSIZE) :
    Ok (({ s with stdinBuffer := buffer, pWpos := wpos } : State π).wakeupQueue WT_KBD) := by
  rw [wakeupQueue_eq]
  refine ⟨hle, hroom, List.nodup_nil, nofun, ?_, fun hne => absurd rfl hne⟩
  intro p r hp
  right
  dsimp only at hp
  refine ⟨List.not_mem_nil, ?_⟩
  by_cases hmem : p ∈ s.waitQueue
  · rw [if_pos hmem] at hp
    obtain ⟨r', _, hr'⟩ := Option.map_eq_some_iff.mp hp
    rw [← hr']
    exact ⟨rfl, rfl⟩
  · rw [if_neg hmem] at hp
    exact ((h.readers p r hp).resolve_left fun hin => hmem hin.1).2

/-- A character that arrives is added to the queue, or dropped when there is no room. -/
theorem devStdinWrite_ok (h : Ok s) (hc : c ≠ 0) (hfits : s.Fits c) :
    Ok (s.devStdinWrite c) ∧
      Fifo.Step STDIN_BUFSIZE s.unread (.put c) (s.devStdinWrite c).unread := by
  have hle := h.le
  rw [State.devStdinWrite, if_pos hc]
  dsimp only
  by_cases hroom : s.pWpos - s.pRpos < STDIN_BUFSIZE
  · rw [if_pos hroom]
    refine ⟨h.wakeupQueue (by omega) (by omega), ?_⟩
    have hunread : (({ s with
        stdinBuffer := update s.stdinBuffer (s.pWpos % STDIN_BUFSIZE) c
        pWpos := s.pWpos + 1 } : State π).wakeupQueue WT_KBD).unread = s.unread ++ [c] := by
      rw [wakeupQueue_eq, State.unread, State.unread]
      dsimp only
      rw [show s.pWpos + 1 - s.pRpos = s.pWpos - s.pRpos + 1 by omega, List.range_succ,
        List.map_append, List.map_singleton, show s.pRpos + (s.pWpos - s.pRpos) = s.pWpos by omega,
        update_self]
      congr 1
      apply List.map_congr_left
      intro i hi
      rw [List.mem_range] at hi
      apply update_of_ne
      -- fewer than `STDIN_BUFSIZE` positions apart
      rw [STDIN_BUFSIZE] at hroom ⊢
      omega
    rw [hunread]
    exact .keep (by rw [State.length_unread]; exact hroom)
  · rw [if_neg hroom]
    refine ⟨h.wakeupQueue hle h.room, ?_⟩
    have hsame : update s.stdinBuffer (s.pWpos % STDIN_BUFSIZE) c = s.stdinBuffer := by
      rw [← hfits.resolve_left hroom, update_eq_self]
    rw [hsame, wakeupQueue_eq]
    exact .drop (by rw [State.length_unread]; omega)

/-- A reader takes characters from the front. -/
theorem devStdinRead_ok (h : Ok s) (hp : p ∉ s.waitQueue) (ret len : ℕ) :
    Ok (s.devStdinRead p ret len).2 ∧ Fifo.Step STDIN_BUFSIZE s.unread
      (.take (s.devStdinRead p ret len).1) (s.devStdinRead p ret len).2.unread := by
  obtain ⟨cs, hunread, hloop, -, hstop, hpos⟩ := readLoop_spec (len - ret) s
  have hle := h.le
  have hroom := h.room
  have hle' : s.pRpos + cs.length ≤ s.pWpos := by
    rcases Nat.eq_zero_or_pos cs.length with h0 | h0
    · omega
    · exact hpos h0
  have hempty : s.waitQueue ≠ [] → s.pWpos ≤ s.pRpos + cs.length := fun hne => by
    have := h.empty hne
    omega
  rw [hloop] at hunread
  rw [State.devStdinRead, hloop]
  dsimp only
  by_cases hlen : ret + cs.length < len
  · rw [if_pos hlen]
    refine ⟨⟨hle', by dsimp only [State.waitCurrentSet]; omega, ?_, ?_, ?_, ?_⟩, ?_⟩
    · show (s.waitQueue ++ [p]).Nodup
      rw [List.nodup_append]
      refine ⟨h.nodup, List.nodup_singleton p, ?_⟩
      intro a ha b hb hab
      rw [List.mem_singleton] at hb
      exact hp (hb ▸ hab ▸ ha)
    · intro q hq
      show update s.reader p _ q ≠ none
      by_cases hqp : q = p
      · rw [hqp, update_self]
        exact nofun
      · rw [update_of_ne hqp]
        exact h.waiting q ((List.mem_append.mp hq).resolve_right fun hq =>
          hqp (List.mem_singleton.mp hq))
    · intro q r hq
      show q ∈ s.waitQueue ++ [p] ∧ _ ∨ q ∉ s.waitQueue ++ [p] ∧ _
      have hq : update s.reader p _ q = some r := hq
      by_cases hqp : q = p
      · rw [hqp, update_self] at hq
        cases hq
        exact Or.inl ⟨List.mem_append.mpr (Or.inr (List.mem_singleton.mpr hqp)), rfl⟩
      · rw [update_of_ne hqp] at hq
        have hmem : q ∈ s.waitQueue ++ [p] ↔ q ∈ s.waitQueue := by
          rw [List.mem_append, List.mem_singleton, or_iff_left hqp]
        rw [hmem]
        exact h.readers q r hq
    · intro _
      exact hstop (by omega)
    · rw [hunread]
      exact .take
  · rw [if_neg hlen]
    refine ⟨⟨hle', by dsimp only [State.returns]; omega, h.nodup, ?_, ?_, hempty⟩, ?_⟩
    · intro q hq
      show update s.reader p none q ≠ none
      have hqp : q ≠ p := fun hqp => hp (hqp ▸ hq)
      rw [update_of_ne hqp]
      exact h.waiting q hq
    · intro q r hq
      have hq : update s.reader p none q = some r := hq
      by_cases hqp : q = p
      · rw [hqp, update_self] at hq
        exact nomatch hq
      · rw [update_of_ne hqp] at hq
        exact h.readers q r hq
    · rw [hunread]
      exact .take

/-- A reader that was not woken by a character gives up. -/
theorem interrupted_ok (h : Ok s) {r : Reader} (hp : s.reader p = some r)
    (hflags : r.wakeupFlags ≠ WT_KBD) : Ok ((s.waitCurrentDel p).returns p) := by
  have hmem : p ∈ s.waitQueue := by
    rcases h.readers p r hp with ⟨hmem, _⟩ | ⟨_, _, hkbd⟩
    · exact hmem
    · exact absurd hkbd hflags
  refine ⟨h.le, h.room, h.nodup.erase p, ?_, ?_, fun _ => h.empty (List.ne_nil_of_mem hmem)⟩
  · intro q hq
    show update s.reader p none q ≠ none
    obtain ⟨hqp, hq⟩ := h.nodup.mem_erase_iff.mp hq
    rw [update_of_ne hqp]
    exact h.waiting q hq
  · intro q r hq
    have hq : update s.reader p none q = some r := hq
    by_cases hqp : q = p
    · rw [hqp, update_self] at hq
      exact nomatch hq
    · rw [update_of_ne hqp] at hq
      have hiff : q ∈ ((s.waitCurrentDel p).returns p).waitQueue ↔ q ∈ s.waitQueue :=
        h.nodup.mem_erase_iff.trans (and_iff_right hqp)
      rw [hiff]
      exact h.readers q r hq

/-- `do_kill` leaves the queue alone. -/
theorem kill_ok (h : Ok s) (p : π) : Ok (s.wakeupProc p) := by
  refine ⟨h.le, h.room, h.nodup, ?_, ?_, h.empty⟩
  · intro q hq
    show update s.reader p _ q ≠ none
    by_cases hqp : q = p
    · rw [hqp, update_self]
      intro hnone
      exact h.waiting p (hqp ▸ hq) (Option.map_eq_none_iff.mp hnone)
    · rw [update_of_ne hqp]
      exact h.waiting q hq
  · intro q r hq
    have hq : update s.reader p _ q = some r := hq
    by_cases hqp : q = p
    · rw [hqp, update_self] at hq
      obtain ⟨r', hr', heq⟩ := Option.map_eq_some_iff.mp hq
      rw [hqp, ← heq]
      rcases h.readers p r' hr' with ⟨hmem, hflags⟩ | ⟨hmem, -, hflags⟩
      · exact Or.inl ⟨hmem, hflags⟩
      · exact Or.inr ⟨hmem, rfl, hflags⟩
    · rw [update_of_ne hqp] at hq
      exact h.readers q r hq

omit [DecidableEq π] in
/-- A step that takes nothing. -/
theorem step_nil (s : State π) : Fifo.Step STDIN_BUFSIZE s.unread (.take []) s.unread :=
  @Fifo.Step.take _ _ [] s.unread

/-- **Every step is an operation on the unread characters.** -/
theorem step_ok {op : Op UInt8} {s' : State π} (h : Ok s) (hstep : Step s op s')
    (hfits : ∀ c, op = .put c → s.Fits c) :
    Ok s' ∧ Fifo.Step STDIN_BUFSIZE s.unread op s'.unread := by
  cases hstep with
  | write c hc => exact devStdinWrite_ok h hc (hfits c rfl)
  | none =>
    rw [State.devStdinWrite, if_neg (not_not.mpr rfl)]
    exact ⟨h, step_nil s⟩
  | call p len hp => exact devStdinRead_ok h (fun hmem => h.waiting p hmem hp) 0 len
  | tryAgain p r hp hawake hflags =>
    have hmem : p ∉ s.waitQueue := by
      rcases h.readers p r hp with ⟨_, hint⟩ | ⟨hmem, _, _⟩
      · rw [hflags] at hint
        exact absurd hint (by decide)
      · exact hmem
    have hdel : s.waitCurrentDel p = s := by
      rw [State.waitCurrentDel, List.erase_of_not_mem hmem]
    rw [hdel]
    exact devStdinRead_ok h hmem r.ret r.len
  | interrupted p r hp hawake hflags => exact ⟨interrupted_ok h hp hflags, step_nil s⟩
  | kill p => exact ⟨kill_ok h p, step_nil s⟩

/-! ### Runs -/

/-- A step in which no character takes the place of a different one. -/
def FittingStep (s : State π) (op : Op UInt8) (s' : State π) : Prop :=
  Step s op s' ∧ ∀ c, op = .put c → s.Fits c

theorem run_ok {ops : List (Op UInt8)} (h : Trace FittingStep (State.init : State π) ops s) :
    Ok s ∧ Trace (Fifo.Step STDIN_BUFSIZE) [] ops s.unread := by
  induction h with
  | nil => exact ⟨.init, .nil⟩
  | snoc _ hstep ih =>
    obtain ⟨hok, htrace⟩ := ih
    obtain ⟨hok', hstep'⟩ := step_ok hok hstep.1 hstep.2
    exact ⟨hok', .snoc htrace hstep'⟩

/-- A character that does not fit is stored over the oldest unread one. -/
theorem unread_of_not_fits (h : Ok s) (hc : c ≠ 0) (hfits : ¬s.Fits c) :
    (s.devStdinWrite c).unread ≠ s.unread ∧ s.unread.length = STDIN_BUFSIZE := by
  obtain ⟨hfull, hne⟩ := not_or.mp hfits
  have hroom := h.room
  have hlt : s.pRpos < s.pWpos := by
    rw [STDIN_BUFSIZE] at hfull
    omega
  have hplace : s.pWpos % STDIN_BUFSIZE = s.pRpos % STDIN_BUFSIZE := by
    rw [STDIN_BUFSIZE] at hfull hroom ⊢
    omega
  constructor
  · rw [State.devStdinWrite, if_pos hc]
    dsimp only
    rw [if_neg hfull, wakeupQueue_eq]
    intro heq
    have hhead := congrArg List.head? heq
    rw [State.head_unread, State.head_unread hlt, Option.some_inj] at hhead
    · dsimp only at hhead
      rw [hplace, update_self] at hhead
      rw [hplace] at hne
      exact hne hhead.symm
    · exact hlt
  · rw [State.length_unread]
    omega

/-- **The console input queue.**  In a run in which no character takes the place of a different one,
the characters read are, in order, those that arrived while there was room, up to the unread ones;
a reader is asleep only while there are none, and the next character wakes it.  A character that
does take the place of a different one ends this. -/
theorem console_input {ops : List (Op UInt8)}
    (h : Trace FittingStep (State.init : State π) ops s) :
    (log STDIN_BUFSIZE ops).kept = (log STDIN_BUFSIZE ops).taken ++ s.unread ∧
    (∀ p r, s.reader p = some r → r.asleep = true → s.unread = []) ∧
    (∀ c ≠ 0, ∀ p r, (s.devStdinWrite c).reader p = some r →
      r.asleep = false ∧ r.wakeupFlags = WT_KBD) ∧
    ∀ c ≠ 0, (log STDIN_BUFSIZE (ops ++ [.put c])).kept =
      (log STDIN_BUFSIZE (ops ++ [.put c])).taken ++ (s.devStdinWrite c).unread ↔ s.Fits c := by
  obtain ⟨hok, htrace⟩ := run_ok h
  have hlog := log_eq htrace
  refine ⟨hlog, fun p r => hok.unread_of_asleep, fun c hc p r => hok.woken hc, ?_⟩
  intro c hc
  constructor
  · intro heq
    by_contra hfits
    obtain ⟨hne, hlength⟩ := unread_of_not_fits hok hc hfits
    have hdropped : log STDIN_BUFSIZE (ops ++ [.put c]) = log STDIN_BUFSIZE ops := by
      rw [log_snoc, Log.add, if_neg]
      rw [hlog, List.length_append, Nat.add_sub_cancel_left, hlength]
      exact lt_irrefl _
    rw [hdropped, hlog] at heq
    exact hne (List.append_cancel_left heq).symm
  · intro hfits
    obtain ⟨-, hstep⟩ := devStdinWrite_ok hok hc hfits
    exact log_eq (htrace.snoc hstep)

/-- A reader reads the only character. -/
theorem console_input_one : (log STDIN_BUFSIZE ([Op.put 97] ++ [Op.take [97]])).kept =
    (log STDIN_BUFSIZE ([Op.put 97] ++ [Op.take [97]])).taken ++
      (((State.init : State ℕ).devStdinWrite 97).devStdinRead 0 0 1).2.unread := by
  have hwrite : Trace FittingStep (State.init : State ℕ) ([] ++ [Op.put 97])
      ((State.init : State ℕ).devStdinWrite 97) :=
    .snoc .nil ⟨.write 97 (by decide), fun c _ => Or.inl (by decide)⟩
  exact (console_input (hwrite.snoc ⟨.call 0 1 rfl, nofun⟩)).1

/-! ### A full buffer -/

/-- The state after `n` characters 97. -/
def typed (n : ℕ) : State ℕ := (State.devStdinWrite 97)^[n] State.init

theorem typed_spec {n : ℕ} (hn : n ≤ STDIN_BUFSIZE) : (typed n).pWpos = n ∧ (typed n).pRpos = 0 ∧
    (typed n).waitQueue = [] ∧ (typed n).reader = (fun _ => none) ∧
    Trace Step State.init (List.replicate n (Op.put 97)) (typed n) ∧
    log STDIN_BUFSIZE (List.replicate n (Op.put (97 : UInt8))) = ⟨List.replicate n 97, []⟩ := by
  induction n with
  | zero => exact ⟨rfl, rfl, rfl, rfl, .nil, rfl⟩
  | succ n ih =>
    obtain ⟨hw, hr, hq, hreader, htrace, hlog⟩ := ih (by omega)
    have hnext : typed (n + 1) = (typed n).devStdinWrite 97 := iterate_succ_apply' _ _ _
    have hwrite : (typed n).devStdinWrite 97 = { typed n with
        stdinBuffer := update (typed n).stdinBuffer ((typed n).pWpos % STDIN_BUFSIZE) 97
        pWpos := n + 1 } := by
      rw [State.devStdinWrite, if_pos (by decide)]
      dsimp only
      rw [if_pos (by omega), State.wakeupQueue, hq, hw]
      rfl
    rw [List.replicate_succ', hnext]
    refine ⟨by rw [hwrite], by rw [hwrite, hr], by rw [hwrite, hq], by rw [hwrite, hreader],
      htrace.snoc (.write 97 (by decide)), ?_⟩
    rw [log_snoc, hlog, Log.add, if_pos]
    · rw [← List.replicate_succ']
    · rw [List.length_replicate]
      exact hn

/-- The character 98 arrives when there are `STDIN_BUFSIZE` unread ones, and is read first. -/
theorem read_of_full {s : State ℕ} (hw : s.pWpos = STDIN_BUFSIZE) (hr : s.pRpos = 0)
    (hq : s.waitQueue = []) :
    (s.devStdinWrite 98).reader = s.reader ∧ ((s.devStdinWrite 98).devStdinRead 0 0 1).1 = [98] := by
  have hwrite : s.devStdinWrite 98 = { s with
      stdinBuffer := update s.stdinBuffer (s.pWpos % STDIN_BUFSIZE) 98 } := by
    rw [State.devStdinWrite, if_pos (by decide)]
    dsimp only
    rw [if_neg (by omega), State.wakeupQueue, hq]
    rfl
  have hlt : s.pRpos < s.pWpos := by
    rw [hw, hr]
    decide
  rw [hwrite]
  refine ⟨rfl, ?_⟩
  rw [State.devStdinRead, State.readLoop]
  dsimp only
  rw [if_pos hlt, hw, hr, Nat.mod_self, Nat.zero_mod, update_self]
  rfl

/-- After `STDIN_BUFSIZE` characters 97 and one 98, the first character read is 98, which was to be
dropped. -/
theorem full_buffer_is_overwritten : ∃ (ops : List (Op UInt8)) (s : State ℕ),
    Trace Step State.init ops s ∧
      ¬(log STDIN_BUFSIZE ops).taken <+: (log STDIN_BUFSIZE ops).kept := by
  obtain ⟨hw, hr, hq, hreader, htrace, hlog⟩ := typed_spec le_rfl
  obtain ⟨hsame, hread⟩ := read_of_full hw hr hq
  have hcall := Step.call (s := (typed STDIN_BUFSIZE).devStdinWrite 98) 0 1 (by rw [hsame, hreader])
  rw [hread] at hcall
  refine ⟨_, _, (htrace.snoc (.write 98 (by decide))).snoc hcall, ?_⟩
  rw [log_snoc, log_snoc, hlog, Log.add, Log.add, if_neg]
  · dsimp only
    rw [List.nil_append]
    intro hpre
    have hmem := List.eq_of_mem_replicate (hpre.mem List.mem_cons_self)
    exact absurd hmem (by decide)
  · rw [List.length_replicate]
    exact lt_irrefl _

end Ucore.Console
