import Ucore.Cow.Bytes
import Ucore.Cow.Runs

/-!
# Dirty COW (`lab5/kern/mm/cow.c`)

`dirtycow_mempoke` copies bytes into the kernel, and then stores them page by page through the kernel's own
mapping of the frames.  In the mode that repairs the bug a page without `PTE_W` is first given to
`do_pgfault`.  So the frame that is written has no other page (`dirtycowPreparePage_spec`), and no program
but the one that calls sees a difference (**`mempoke_isolates`**).

The counters of `dirtycow_stats` are left out.
-/

namespace Ucore.Cow

open Relation (ReflTransGen)

def E_FAULT : ℤ := 6

def VM_STACK : VmFlags := 0x8

abbrev Uintptr := BitVec 64

/-! ### The code -/

/-- `USER_ACCESS`, for addresses. -/
def userAccessBytes (start stop : Uintptr) : Bool :=
  USERBASE ≤ start.toNat && start.toNat < stop.toNat && stop.toNat ≤ USERTOP

/-- The loop of `user_mem_check`; the number bounds the turns. -/
def memCheckLoop (mm : Mm) (write : Bool) (stop : ℕ) : ℕ → ℕ → Bool
  | 0, start => decide (stop ≤ start)
  | k + 1, start =>
    if start < stop then
      match findVma mm start with
      | none => false
      | some vma =>
        if start < vma.vmStart then false
        else if vma.vmFlags &&& (if write then VM_WRITE else VM_READ) = 0 then false
        else if write && vma.vmFlags &&& VM_STACK != 0 && start < vma.vmStart + PGSIZE then false
        else memCheckLoop mm write stop k vma.vmEnd
    else true

/-- `user_mem_check` -/
def userMemCheck (mm : Mm) (addr len : Uintptr) (write : Bool) : Bool :=
  userAccessBytes addr (addr + len) &&
    memCheckLoop mm write (addr + len).toNat ((addr + len).toNat - addr.toNat) addr.toNat

/-- A load from user memory in the kernel.  When it faults, the trap handler returns to it, for ever. -/
def loadByte (a x : ℕ) (s : State) : Option UInt8 :=
  let pte := s.pte a (x / PGSIZE)
  if has pte.flags PTE_V && has pte.flags PTE_R then
    some (s.data pte.ppn ⟨x % PGSIZE, Nat.mod_lt x (by decide)⟩)
  else none

/-- `memcpy` from user memory. -/
def loadBytes (a : ℕ) : ℕ → ℕ → State → Option (List UInt8)
  | 0, _, _ => some []
  | n + 1, x, s => do
    let b ← loadByte a x s
    let bytes ← loadBytes a n (x + 1) s
    some (b :: bytes)

/-- `copy_from_user`: the bytes, if the range is accepted; `none` when it does not return. -/
def copyFromUser (a : ℕ) (src len : Uintptr) (s : State) : Option (Option (List UInt8)) :=
  if userMemCheck (s.mm a) src len false then
    (loadBytes a len.toNat src.toNat s).map some
  else some none

/-- `dirtycow_prepare_page` for page `p`; `emulateBug` is the mode. -/
def dirtycowPreparePage (emulateBug : Bool) (answers : Answers) (a p : ℕ) (s : State) : ℤ × State :=
  match getPte false false a p s with
  | none => (-E_INVAL, s)
  | some s =>
    if has (s.pte a p).flags PTE_V = false then (-E_INVAL, s)
    else if emulateBug then (0, s)
    else if has (s.pte a p).flags PTE_W = false then doPgfault answers a PTE_W (p * PGSIZE) s
    else (0, s)

/-- The loop of `dirtycow_user_mem_write`; the number bounds the turns, and the allocator answers to the
turn at `copied`. -/
def userMemWriteLoop (emulateBug : Bool) (answers : ℕ → Answers) (a dst : ℕ) (buf : List UInt8) :
    ℕ → ℕ → State → ℤ × State
  | 0, _, s => (0, s)
  | k + 1, copied, s =>
    if copied < buf.length then
      let la := dst + copied
      let pageOff := la % PGSIZE
      let chunk := buf.length - copied
      let remain := PGSIZE - pageOff
      let chunk := if chunk > remain then remain else chunk
      let (ret, s) := dirtycowPreparePage emulateBug (answers copied) a (la / PGSIZE) s
      if ret ≠ 0 then (ret, s)
      else
        match getPte false false a (la / PGSIZE) s with
        | none => (-E_FAULT, s)
        | some s =>
          if has (s.pte a (la / PGSIZE)).flags PTE_V = false then (-E_FAULT, s)
          else
            userMemWriteLoop emulateBug answers a dst buf k (copied + chunk)
              (putPage (s.pte a (la / PGSIZE)).ppn pageOff ((buf.drop copied).take chunk) s)
    else (0, s)

/-- `dirtycow_user_mem_write` -/
def dirtycowUserMemWrite (emulateBug : Bool) (answers : ℕ → Answers) (a : ℕ) (dst len : Uintptr)
    (buf : List UInt8) (s : State) : ℤ × State :=
  if dst + len < dst || !userAccessBytes dst (dst + len) then (-E_INVAL, s)
  else userMemWriteLoop emulateBug answers a dst.toNat buf buf.length 0 s

/-- `dirtycow_mempoke`; `kmalloc` says whether there is a buffer.  It is `none` when the call does not
return. -/
def dirtycowMempoke (emulateBug kmalloc : Bool) (answers : ℕ → Answers) (mm : Option ℕ)
    (dst src len : Uintptr) (s : State) : Option (ℤ × State) :=
  match mm with
  | none => some (-E_INVAL, s)
  | some a =>
    if len = 0 then some (0, s)
    else if kmalloc = false then some (-E_NO_MEM, s)
    else
      match copyFromUser a src len s with
      | none => none
      | some none => some (-E_FAULT, s)
      | some (some kbuf) => some (dirtycowUserMemWrite emulateBug answers a dst len kbuf s)

variable {pool : Set ℕ} {a p : ℕ} {s s' : State} {ret : ℤ} {buf : List UInt8}

/-! ### What is read -/

theorem userByte_of_loadByte {x : ℕ} {b : UInt8} (h : loadByte a x s = some b) : userByte s a x = some b := by
  rw [loadByte] at h
  by_cases hpte : (has (s.pte a (x / PGSIZE)).flags PTE_V && has (s.pte a (x / PGSIZE)).flags PTE_R) = true
  · rw [if_pos hpte] at h
    have hmap := mapping_eq_some.mpr ⟨(Bool.and_eq_true_iff.mp hpte).1, rfl⟩
    rw [userByte, show x / 4096 = x / PGSIZE from rfl, view_eq_some hmap]
    exact h
  · rw [if_neg hpte] at h
    cases h

theorem loadBytes_spec (n x : ℕ) (h : loadBytes a n x s = some buf) :
    buf.length = n ∧ ∀ i (hi : i < buf.length), userByte s a (x + i) = some buf[i] := by
  induction n generalizing x buf with
  | zero =>
    cases h
    exact ⟨rfl, fun i hi => absurd hi (Nat.not_lt_zero i)⟩
  | succ n ih =>
    rw [loadBytes] at h
    obtain ⟨b, hb, h⟩ := Option.bind_eq_some_iff.mp h
    obtain ⟨bytes, hbytes, h⟩ := Option.bind_eq_some_iff.mp h
    cases h
    obtain ⟨hlen, hget⟩ := ih (x + 1) hbytes
    refine ⟨congrArg (· + 1) hlen, fun i hi => ?_⟩
    cases i with
    | zero => exact userByte_of_loadByte hb
    | succ i =>
      have hi' := hget i (Nat.lt_of_succ_lt_succ hi)
      rw [Nat.add_right_comm] at hi'
      exact hi'

/-- The bytes that `copy_from_user` has read. -/
theorem copyFromUser_spec {src len : Uintptr} (h : copyFromUser a src len s = some (some buf)) :
    buf.length = len.toNat ∧ ∀ i (hi : i < buf.length), userByte s a (src.toNat + i) = some buf[i] := by
  rw [copyFromUser] at h
  split at h
  case isTrue =>
    obtain ⟨bytes, hbytes, heq⟩ := Option.map_eq_some_iff.mp h
    cases heq
    exact loadBytes_spec _ _ hbytes
  case isFalse => exact nomatch h

/-! ### What is written -/

/-- **A page before the write**: nothing is read that was not there, and after 0 its frame has no other
page. -/
theorem dirtycowPreparePage_spec (h : Sharing pool ∅ s) (answers : Answers)
    (hrun : dirtycowPreparePage false answers a p s = (ret, s')) :
    Sharing pool ∅ s' ∧ view s' = view s ∧
      (ret = 0 → ∃ f, mapping s' (a, p) = some f ∧ ∀ y, mapping s' y = some f → y = (a, p)) := by
  have hinval : -E_INVAL ≠ 0 := by decide
  rw [dirtycowPreparePage] at hrun
  rcases getPte_false (a := a) (p := p) (s := s) false with hget | ⟨hget, -⟩
  swap
  · rw [hget] at hrun
    cases hrun
    exact ⟨h, rfl, fun hret => absurd hret hinval⟩
  rw [hget] at hrun
  dsimp only at hrun
  by_cases hvalid : has (s.pte a p).flags PTE_V = false
  · rw [if_pos hvalid] at hrun
    cases hrun
    exact ⟨h, rfl, fun hret => absurd hret hinval⟩
  have hmap : mapping s (a, p) = some (s.pte a p).ppn :=
    mapping_eq_some.mpr ⟨Bool.eq_true_of_not_eq_false hvalid, rfl⟩
  rw [if_neg hvalid, if_neg Bool.false_ne_true] at hrun
  by_cases hw : has (s.pte a p).flags PTE_W = false
  · rw [if_pos hw] at hrun
    have hfaults := doPgfault_faults h answers a (p * PGSIZE) PTE_W
    rw [hrun, Nat.mul_div_cancel p (by decide)] at hfaults
    cases hfaults with
    | fails hret h' hro hview => exact ⟨h', hview, fun hzero => absurd hzero hret⟩
    | fresh hfind hnone => exact absurd (hmap.symm.trans hnone) (Option.some_ne_none _)
    | @cow _ vma f hfind hsome hcow hwrite h' honly hw' hview =>
      refine ⟨h', hview, fun _ => ?_⟩
      have hsame : (mapping s' (a, p)).map s'.data = (mapping s (a, p)).map s.data := congrFun hview (a, p)
      cases hmap' : mapping s' (a, p) with
      | none =>
        rw [hmap', hmap] at hsame
        exact nomatch hsame
      | some g => exact ⟨g, rfl, fun y hy => h'.alone hmap' hw' hy⟩
  · rw [if_neg hw] at hrun
    cases hrun
    exact ⟨h, rfl, fun _ => ⟨_, hmap, fun y hy => h.alone hmap (Bool.eq_true_of_not_eq_false hw) hy⟩⟩

/-- The bytes from `copied` on are written, in `a` alone. -/
structure Pokes (pool : Set ℕ) (a dst : ℕ) (buf : List UInt8) (copied : ℕ) (s : State) (ret : ℤ)
    (s' : State) : Prop where
  sharing : Sharing pool ∅ s'
  others : ∀ b q, b ≠ a → view s' (b, q) = view s (b, q)
  inside : ret = 0 → ∀ i, copied ≤ i → ∀ hi : i < buf.length, userByte s' a (dst + i) = some buf[i]
  outside : ret = 0 → ∀ y, ¬ (dst + copied ≤ y ∧ y < dst + buf.length) →
    userByte s' a y = userByte s a y

/-- **The loop of `dirtycow_user_mem_write`.** -/
theorem userMemWriteLoop_spec (answers : ℕ → Answers) (a dst k copied : ℕ) (h : Sharing pool ∅ s)
    (hk : buf.length ≤ copied + k) :
    Pokes pool a dst buf copied s (userMemWriteLoop false answers a dst buf k copied s).1
      (userMemWriteLoop false answers a dst buf k copied s).2 := by
  induction k generalizing copied s with
  | zero => exact ⟨h, fun _ _ _ => rfl, fun _ i hi hi' => by omega, fun _ _ _ => rfl⟩
  | succ k ih =>
    rw [userMemWriteLoop]
    by_cases hmore : copied < buf.length
    swap
    · rw [if_neg hmore]
      exact ⟨h, fun _ _ _ => rfl, fun _ i hi hi' => by omega, fun _ _ _ => rfl⟩
    rw [if_pos hmore]
    obtain ⟨⟨ret, s₁⟩, hprepare⟩ : ∃ r,
        dirtycowPreparePage false (answers copied) a ((dst + copied) / PGSIZE) s = r := ⟨_, rfl⟩
    obtain ⟨h₁, hview₁, hzero⟩ := dirtycowPreparePage_spec h _ hprepare
    simp only [hprepare]
    by_cases hret : ret ≠ 0
    · rw [if_pos hret]
      exact ⟨h₁, fun b q _ => congrFun hview₁ (b, q), fun hr => absurd hr hret, fun hr => absurd hr hret⟩
    rw [if_neg hret]
    obtain ⟨f, hmap, halone⟩ := hzero (not_not.mp hret)
    obtain ⟨hvalid, hppn⟩ := mapping_eq_some.mp hmap
    rw [getPte_eq_self (h₁.hasTable hmap)]
    dsimp only
    rw [if_neg (by rw [hvalid]; exact Bool.noConfusion), hppn]
    obtain ⟨chunk, hchunk⟩ : ∃ chunk, chunk = if buf.length - copied > PGSIZE - (dst + copied) % PGSIZE then
        PGSIZE - (dst + copied) % PGSIZE else buf.length - copied := ⟨_, rfl⟩
    rw [← hchunk]
    have hlt : (dst + copied) % PGSIZE < PGSIZE := Nat.mod_lt _ (by decide)
    have hsize : 0 < chunk ∧ copied + chunk ≤ buf.length ∧ (dst + copied) % PGSIZE + chunk ≤ PGSIZE := by
      split at hchunk
      · omega
      · omega
    have hlen : ((buf.drop copied).take chunk).length = chunk := by
      rw [List.length_take, List.length_drop]
      omega
    have hst := stores_putPage ((dst + copied) % PGSIZE) ((buf.drop copied).take chunk) hmap halone
      (by rw [hlen]; exact hsize.2.2)
    have hbase : 4096 * ((dst + copied) / PGSIZE) + (dst + copied) % PGSIZE = dst + copied := Nat.div_add_mod ..
    rw [hbase] at hst
    have h₂ : Sharing pool ∅ (putPage f ((dst + copied) % PGSIZE) ((buf.drop copied).take chunk) s₁) :=
      h₁.setData f _
    have hrest := ih (copied + chunk) h₂ (by omega)
    refine ⟨hrest.sharing, fun b q hb => ?_, fun hr i hlo hi => ?_, fun hr y hy => ?_⟩
    · rw [hrest.others b q hb, hst.others b q hb, hview₁]
    · by_cases hnow : i < copied + chunk
      · have hin := hst.inside (i - copied) (by omega)
        rw [hrest.outside hr _ (by omega), show dst + i = dst + copied + (i - copied) by omega, hin,
          List.getElem_take, List.getElem_drop]
        congr 2
        omega
      · exact hrest.inside hr i (not_lt.mp hnow) hi
    · rw [hrest.outside hr y (by omega), hst.outside y (by omega)]
      exact userByte_of_view (congrFun hview₁ _)

/-! ### Runs -/

/-- What a call of `dirtycow_mempoke` does. -/
structure MempokeSpec (pool : Set ℕ) (mm : Option ℕ) (dst src len : Uintptr) (s : State) (ret : ℤ)
    (s' : State) : Prop where
  sharing : Sharing pool ∅ s'
  others : ∀ b, mm ≠ some b → ∀ x, userByte s' b x = userByte s b x
  inside : ret = 0 → ∀ a ∈ mm, ∀ i < len.toNat, ∃ byte,
    userByte s a (src.toNat + i) = some byte ∧ userByte s' a (dst.toNat + i) = some byte
  outside : ret = 0 → ∀ a ∈ mm, ∀ y, ¬ (dst.toNat ≤ y ∧ y < dst.toNat + len.toNat) →
    userByte s' a y = userByte s a y

/-- A call that returns an error before it has written anything. -/
theorem Sharing.mempokeSpec (h : Sharing pool ∅ s) (hret : ret ≠ 0) (mm : Option ℕ) (dst src len : Uintptr) :
    MempokeSpec pool mm dst src len s ret s :=
  ⟨h, fun _ _ _ => rfl, fun hzero => absurd hzero hret, fun hzero => absurd hzero hret⟩

/-- **One call.** -/
theorem dirtycowMempoke_spec (h : Sharing pool ∅ s) {kmalloc : Bool} {answers : ℕ → Answers}
    {mm : Option ℕ} {dst src len : Uintptr}
    (hcall : dirtycowMempoke false kmalloc answers mm dst src len s = some (ret, s')) :
    MempokeSpec pool mm dst src len s ret s' := by
  cases mm with
  | none =>
    cases hcall
    exact h.mempokeSpec (by decide) none dst src len
  | some a =>
    rw [dirtycowMempoke] at hcall
    by_cases hlen : len = 0
    · rw [if_pos hlen] at hcall
      cases hcall
      subst hlen
      exact ⟨h, fun _ _ _ => rfl, fun _ _ _ i hi => absurd hi (Nat.not_lt_zero i), fun _ _ _ _ _ => rfl⟩
    rw [if_neg hlen] at hcall
    by_cases hmem : kmalloc = false
    · rw [if_pos hmem] at hcall
      cases hcall
      exact h.mempokeSpec (by decide) (some a) dst src len
    rw [if_neg hmem] at hcall
    cases hcopy : copyFromUser a src len s with
    | none =>
      rw [hcopy] at hcall
      exact nomatch hcall
    | some r =>
      rw [hcopy] at hcall
      cases r with
      | none =>
        cases hcall
        exact h.mempokeSpec (by decide) (some a) dst src len
      | some kbuf =>
        obtain ⟨hkbuf, hread⟩ := copyFromUser_spec hcopy
        have hrun := Option.some.inj hcall
        rw [dirtycowUserMemWrite] at hrun
        split at hrun
        case isTrue =>
          cases hrun
          exact h.mempokeSpec (by decide) (some a) dst src len
        case isFalse =>
          have hpokes := userMemWriteLoop_spec answers a dst.toNat kbuf.length 0 h (Nat.le_add_left ..)
          rw [hrun] at hpokes
          refine ⟨hpokes.sharing, fun b hb x => ?_, fun hret b hb i hi => ?_, fun hret b hb y hy => ?_⟩
          · exact userByte_of_view (hpokes.others b _ fun heq => hb (congrArg some heq.symm))
          · cases hb
            exact ⟨_, hread i (by omega), hpokes.inside hret i (Nat.zero_le i) (by omega)⟩
          · cases hb
            exact hpokes.outside hret y (by omega)

/-- A call on user memory, or `dirtycow_mempoke` in the mode that repairs the bug. -/
inductive PokeStep (s s' : State) : Prop
  | call {call : Call} {e : Space.Event Bytes} (h : s.call call = some (e, s'))
  | mempoke {kmalloc : Bool} {answers : ℕ → Answers} {mm : Option ℕ} {dst src len : Uintptr} {ret : ℤ}
    (h : dirtycowMempoke false kmalloc answers mm dst src len s = some (ret, s'))

/-- **`dirtycow_mempoke` isolates address spaces**, after any run. -/
theorem mempoke_isolates {s₀ : State} (h₀ : Start pool s₀) (hrun : ReflTransGen PokeStep s₀ s)
    (kmalloc : Bool) (answers : ℕ → Answers) (mm : Option ℕ) (dst src len : Uintptr)
    (hcall : dirtycowMempoke false kmalloc answers mm dst src len s = some (ret, s')) :
    (∀ b, mm ≠ some b → ∀ x, userByte s' b x = userByte s b x) ∧
      (ret = 0 → ∀ a ∈ mm,
        (∀ i < len.toNat, ∃ byte,
          userByte s a (src.toNat + i) = some byte ∧ userByte s' a (dst.toNat + i) = some byte) ∧
        ∀ y, ¬ (dst.toNat ≤ y ∧ y < dst.toNat + len.toNat) → userByte s' a y = userByte s a y) := by
  have hstep : ∀ t t', Sharing pool ∅ t → PokeStep t t' → Sharing pool ∅ t' := by
    intro t t' ht hstep
    cases hstep with
    | call h => exact (ht.callSpec h).sharing
    | mempoke h => exact (dirtycowMempoke_spec ht h).sharing
  have hspec := dirtycowMempoke_spec (Transition.invariant hstep hrun h₀.sharing) hcall
  exact ⟨hspec.others, fun hret a ha => ⟨hspec.inside hret a ha, hspec.outside hret a ha⟩⟩

/-- A page is mapped and shared with another address space; then two bytes of it are poked. -/
theorem mempoke_isolates_fork : ∃ s s',
    ReflTransGen PokeStep (bootState [userPage (VM_READ ||| VM_WRITE)]) s ∧
      dirtycowMempoke false true (fun _ => ⟨true, some 1⟩) (some 1) 0x200FFE 0x200000 2 s = some (0, s') ∧
      ∀ x, userByte s' 0 x = userByte s 0 x := by
  have hret : (((bootState [userPage (VM_READ ||| VM_WRITE)]).call
      (.insert ⟨true, some 0⟩ 0 512 (PTE_U ||| PTE_R ||| PTE_W) fun _ => 7)).bind fun r =>
        (r.2.call (.fork (fun _ => true) 1 0 512 513)).bind fun r =>
          (dirtycowMempoke false true (fun _ => ⟨true, some 1⟩) (some 1) 0x200FFE 0x200000 2 r.2).map
            Prod.fst) = some 0 := by decide +kernel
  obtain ⟨⟨e₁, s₁⟩, hinsert, hret⟩ := Option.bind_eq_some_iff.mp hret
  obtain ⟨⟨e, s⟩, hfork, hret⟩ := Option.bind_eq_some_iff.mp hret
  obtain ⟨⟨ret, s'⟩, hcall, rfl⟩ := Option.map_eq_some_iff.mp hret
  have hrun := (ReflTransGen.single (PokeStep.call hinsert)).tail (.call hfork)
  exact ⟨s, s', hrun, hcall, (mempoke_isolates (start_bootState _) hrun true (fun _ => ⟨true, some 1⟩) (some 1)
    0x200FFE 0x200000 2 hcall).1 0 (by decide)⟩

end Ucore.Cow
