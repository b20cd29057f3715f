import Ucore.Cow.Faults
import Ucore.Lib.Transition

/-!
# Runs of address spaces that share pages

* **`cow_isolation`**: along every run the counters are right, a frame is free exactly when no page
  maps it, a writable page is alone on its frame, and every page reads what it would read if fork
  copied at once.
* **`cow_keeps_permissions`**: `do_pgfault` makes a page of a segment without `VM_WRITE` writable
  exactly when it is a write fault on a copy-on-write page; without such faults no page of such a
  segment is ever writable.  `readOnly_page_becomes_writable` is the fault.
-/

namespace Ucore.Cow

open RefCount Transition

variable {s s' s₀ : State} {pool : Set ℕ} {a p f : ℕ} {es : List (Space.Event Bytes)}

/-! ### Calls -/

/-- The calls on user memory.  The answers are those of the allocator. -/
inductive Call
  | fork (answer : ℕ → Bool) (dst src start stop : ℕ)
  | store (a p : ℕ) (i : Fin PGSIZE) (b : UInt8)
  | fault (answers : Answers) (a : ℕ) (errorCode : Perm) (addr : ℕ)
  | insert (answers : Answers) (a p : ℕ) (perm : Perm) (d : Bytes)
  | unmap (a start stop : ℕ)
  | remove (a p : ℕ)

/-- A call, and what it does to spaces that own their pages.  `none` stands for a failed assertion
and for a store that does not go through because the entry lacks `PTE_W`. -/
def State.call (s : State) : Call → Option (Space.Event Bytes × State)
  | .fork answer dst src start stop =>
    (copyRange answer dst src start stop s).map fun (r, s') =>
      (.fork dst src start (r.getD stop), s')
  | .store a p i b =>
    if has (s.pte a p).flags PTE_V && has (s.pte a p).flags PTE_W then
      some (.store (a, p) fun d => Function.update d i b, userStore a p i b s)
    else none
  | .fault answers a errorCode addr =>
    let (ret, s') := doPgfault answers a errorCode addr s
    if ret = 0 ∧ mapping s (a, addr / PGSIZE) = none then
      some (.newPage (a, addr / PGSIZE) fun _ => 0, s')
    else some (.silent, s')
  | .insert answers a p perm d =>
    match pgdirAllocPage answers a p perm d s with
    | (some _, s') => some (.newPage (a, p) d, s')
    | (none, s') => some (.silent, s')
  | .unmap a start stop => (unmapRange a start stop s).map fun s' => (.unmap a start stop, s')
  | .remove a p => some (.unmap a p (p + 1), pageRemove a p s)

/-- One call that `P` admits. -/
def Step (P : State → Call → Prop) (s : State) (e : Space.Event Bytes) (s' : State) : Prop :=
  ∃ call, P s call ∧ s.call call = some (e, s')

/-- No page is mapped yet; the allocator has the frames `pool`. -/
structure Start (pool : Set ℕ) (s : State) : Prop where
  pte : ∀ a p, s.pte a p = Pte.zero
  ref : ∀ f, s.ref f = 0
  free : ∀ f, s.free f = true ↔ f ∈ pool

theorem Start.mapping (h : Start pool s) (x : ℕ × ℕ) : mapping s x = none := by
  rw [Cow.mapping, h.pte, if_neg (by decide)]

theorem Start.sharing (h : Start pool s) : Sharing pool ∅ s := by
  have hnone : ∀ x f, Cow.mapping s x ≠ some f := fun x f => by
    rw [h.mapping x]
    exact nofun
  refine ⟨fun f => ?_, fun f hf => ⟨(h.free f).mp hf, h.ref f⟩, fun f hf hfree _ => ?_,
    fun x f hx => absurd hx (hnone x f), fun x f hx => absurd hx (hnone x f), fun a p _ => h.pte a p⟩
  · have hempty : keysOf (Cow.mapping s) f = ∅ :=
      Set.eq_empty_of_forall_notMem fun x => hnone x f
    rw [hempty, Set.encard_empty, h.ref f]
    rfl
  · exact absurd (((h.free f).mpr hf).symm.trans hfree) (by decide)

theorem pageRemove_view (h : Sharing pool ∅ s) (a p : ℕ) :
    Sharing pool ∅ (pageRemove a p s) ∧ KeepsReadOnly s (pageRemove a p s) ∧
      view (pageRemove a p s) = (view s).unmap a p (p + 1) := by
  have hone : Function.update (view s) (a, p) none = (view s).unmap a p (p + 1) := by
    rw [← Space.unmap_step (Nat.lt_succ_self p), Space.unmap_of_le (Nat.le_refl _)]
  rw [pageRemove]
  rcases getPte_false false (s := s) (a := a) (p := p) with hget | ⟨hget, ht⟩
  · rw [hget, ← hone]
    exact pageRemovePte_view h a p
  · rw [hget, ← hone, ← h.view_eq_none ht, Function.update_eq_self]
    exact ⟨h, KeepsReadOnly.refl s, rfl⟩

/-- Page `p` of address space `a` lies in a segment with `VM_WRITE`. -/
def Writable (s : State) (a p : ℕ) : Prop :=
  ∃ vma, findVma (s.mm a) (p * PGSIZE) = some vma ∧ vma.vmFlags &&& VM_WRITE ≠ 0

/-- The pages that a call may make writable. -/
def Gains (s : State) (a p : ℕ) : Call → Prop
  | .insert _ b q perm _ => (a, p) = (b, q) ∧ has perm PTE_W = true
  | .fault _ b errorCode addr => (a, p) = (b, addr / PGSIZE) ∧
    (mapping s (a, p) = none ∧ Writable s a p ∨ mapping s (a, p) ≠ none ∧
      has (s.pte a p).flags PTE_COW = true ∧ has errorCode PTE_W = true)
  | _ => False

theorem has_W_vmaPerm (vmFlags : VmFlags) :
    has (vmaPerm vmFlags) PTE_W = true ↔ vmFlags &&& VM_WRITE ≠ 0 := by
  rw [vmaPerm]
  by_cases hw : vmFlags &&& VM_WRITE ≠ 0
  · rw [if_pos hw]
    refine iff_of_true ?_ hw
    split <;> split <;> decide
  · rw [if_neg hw]
    refine iff_of_false ?_ hw
    split <;> split <;> decide

/-- What a call does: the frames stay right, the pages read what they read after the eager call,
and no page becomes writable but those in `Gains`. -/
structure CallSpec (pool : Set ℕ) (s : State) (call : Call) (e : Space.Event Bytes) (s' : State) :
    Prop where
  sharing : Sharing pool ∅ s'
  view : view s' = (view s).apply e
  write : ∀ x f, mapping s' x = some f → has (s'.pte x.1 x.2).flags PTE_W = true →
    mapping s x ≠ none ∧ has (s.pte x.1 x.2).flags PTE_W = true ∨ Gains s x.1 x.2 call
  mmapList : ∀ b, (s'.mm b).mmapList = (s.mm b).mmapList

variable {call : Call} {e : Space.Event Bytes}

theorem KeepsReadOnly.callSpec (hro : KeepsReadOnly s s') (h : Sharing pool ∅ s')
    (hview : view s' = (view s).apply e) : CallSpec pool s call e s' :=
  ⟨h, hview, fun x f hx hw => Or.inl (hro.write x f hx hw), hro.mmapList⟩

theorem OnlyPage.callSpec (ho : OnlyPage s s' a p) (h : Sharing pool ∅ s')
    (hview : view s' = (view s).apply e)
    (hw : has (s'.pte a p).flags PTE_W = true → Gains s a p call) :
    CallSpec pool s call e s' := by
  refine ⟨h, hview, fun x f hx hxw => ?_, ho.mmapList⟩
  by_cases hxa : x = (a, p)
  · subst hxa
    exact Or.inr (hw hxw)
  · left
    have hpte := ho.others x.1 x.2 hxa
    rw [hpte] at hxw
    rw [mapping, hpte] at hx
    exact ⟨by rw [mapping, hx]; exact Option.some_ne_none f, hxw⟩

/-- **One call.** -/
theorem Sharing.callSpec (h : Sharing pool ∅ s) (hcall : s.call call = some (e, s')) :
    CallSpec pool s call e s' := by
  cases call with
  | fork answer dst src start stop =>
    obtain ⟨⟨r, t⟩, hcopy, heq⟩ := Option.map_eq_some_iff.mp hcall
    obtain ⟨rfl, rfl⟩ := Prod.mk.inj heq
    rw [copyRange] at hcopy
    split at hcopy
    · obtain ⟨r', t', heq', h', hro, -, hview⟩ :=
        copyLoop_spec answer dst src stop (stop - start) start s (by omega) h
      obtain ⟨rfl, rfl⟩ := Prod.mk.inj (heq'.symm.trans (Option.some.inj hcopy))
      exact hro.callSpec h' hview
    · exact nomatch hcopy
  | store a p i b =>
    rw [State.call] at hcall
    split at hcall
    · rename_i hvw
      obtain ⟨hv, hw⟩ := Bool.and_eq_true_iff.mp hvw
      obtain ⟨rfl, rfl⟩ := Prod.mk.inj (Option.some.inj hcall)
      obtain ⟨h', hro, hview⟩ := userStore_spec h (mapping_eq_some.mpr ⟨hv, rfl⟩) hw i b
      exact hro.callSpec h' hview
    · exact nomatch hcall
  | fault answers a errorCode addr =>
    have hf := doPgfault_faults h answers a addr errorCode
    rw [State.call] at hcall
    generalize doPgfault answers a errorCode addr s = r at hf hcall
    obtain ⟨ret, t⟩ := r
    simp only at hf hcall
    cases hf with
    | fails hret h' hro hview =>
      rw [if_neg fun hc => hret hc.1] at hcall
      obtain ⟨rfl, rfl⟩ := Prod.mk.inj (Option.some.inj hcall)
      exact hro.callSpec h' hview
    | fresh hfind hnone h' honly hw hview =>
      rw [if_pos ⟨rfl, hnone⟩] at hcall
      obtain ⟨rfl, rfl⟩ := Prod.mk.inj (Option.some.inj hcall)
      refine honly.callSpec h' hview fun hc => ⟨rfl, Or.inl ⟨hnone, _, hfind, ?_⟩⟩
      exact (has_W_vmaPerm _).mp (hw ▸ hc)
    | cow hfind hsome hcow hwrite h' honly hw hview =>
      rw [if_neg fun hc => Option.some_ne_none _ (hsome.symm.trans hc.2)] at hcall
      obtain ⟨rfl, rfl⟩ := Prod.mk.inj (Option.some.inj hcall)
      refine honly.callSpec h' hview fun _ => ⟨rfl, Or.inr ⟨?_, hcow, hwrite⟩⟩
      rw [hsome]
      exact Option.some_ne_none _
  | insert answers a p perm d =>
    rw [State.call] at hcall
    rcases pgdirAllocPage_spec h answers a p perm d with heq | ⟨page, t, heq, h', honly, hw, hview⟩
    · rw [heq] at hcall
      obtain ⟨rfl, rfl⟩ := Prod.mk.inj (Option.some.inj hcall)
      exact (KeepsReadOnly.refl s).callSpec h rfl
    · rw [heq] at hcall
      obtain ⟨rfl, rfl⟩ := Prod.mk.inj (Option.some.inj hcall)
      exact honly.callSpec h' hview fun hc => ⟨rfl, hw.symm.trans hc⟩
  | unmap a start stop =>
    obtain ⟨t, hunmap, heq⟩ := Option.map_eq_some_iff.mp hcall
    obtain ⟨rfl, rfl⟩ := Prod.mk.inj heq
    rw [unmapRange] at hunmap
    split at hunmap
    · obtain rfl := Option.some.inj hunmap
      obtain ⟨h', hro, hview⟩ := unmapLoop_spec a stop (stop - start) start s (by omega) h
      exact hro.callSpec h' hview
    · exact nomatch hunmap
  | remove a p =>
    obtain ⟨rfl, rfl⟩ := Prod.mk.inj (Option.some.inj hcall)
    obtain ⟨h', hro, hview⟩ := pageRemove_view h a p
    exact hro.callSpec h' hview

/-! ### Isolation -/

/-- What holds of the frames: each counter is the number of valid entries, a frame of the allocator
is free exactly when that number is zero, and a writable entry is the only one of its frame. -/
structure FramesRight (pool : Set ℕ) (s : State) : Prop where
  ref : ∀ f, (s.ref f : ℕ∞) = {x : ℕ × ℕ | mapping s x = some f}.encard
  free : ∀ f ∈ pool, (s.free f = true ↔ {x : ℕ × ℕ | mapping s x = some f}.encard = 0)
  others : ∀ f ∉ pool, s.free f = false ∧ ∀ x, mapping s x ≠ some f
  write : ∀ a p, has (s.pte a p).flags PTE_V = true → has (s.pte a p).flags PTE_W = true →
    s.ref (s.pte a p).ppn = 1

theorem Sharing.framesRight (h : Sharing pool ∅ s) : FramesRight pool s := by
  have hcount : ∀ f, (s.ref f : ℕ∞) = {x : ℕ × ℕ | mapping s x = some f}.encard :=
    fun f => (h.counts f).symm
  refine ⟨hcount, fun f hf => ?_, fun f hf => ⟨?_, fun x hx => hf (h.inPool x f hx)⟩,
    fun a p hv hw => h.write (a, p) _ (mapping_eq_some.mpr ⟨hv, rfl⟩) hw⟩
  · rw [← hcount f, Nat.cast_eq_zero]
    refine ⟨fun hfree => (h.free f hfree).2, fun h0 => ?_⟩
    by_contra hfree
    exact h.used f hf (Bool.eq_false_of_not_eq_true hfree) (Set.notMem_empty f) h0
  · exact Bool.eq_false_of_not_eq_true fun hfree => hf (h.free f hfree).1

/-- **Copy-on-write isolation.** -/
theorem cow_isolation (h₀ : Start pool s₀) (hrun : Trace (Step fun _ _ => True) s₀ es s) :
    FramesRight pool s ∧ view s = es.foldl Space.apply (view s₀) := by
  have hstep : ∀ t e t', Sharing pool ∅ t → Step (fun _ _ => True) t e t' →
      Sharing pool ∅ t' ∧ view t' = (view t).apply e := by
    rintro t e t' ht ⟨call, -, hcall⟩
    exact ⟨(ht.callSpec hcall).sharing, (ht.callSpec hcall).view⟩
  obtain ⟨h, hview⟩ := hrun.foldl hstep h₀.sharing
  exact ⟨h.framesRight, hview⟩

/-- Address spaces with the given segments, four free frames, nothing mapped. -/
def bootState (segments : List Vma) : State where
  mm := fun _ => ⟨segments, fun _ => false, fun _ => Pte.zero⟩
  ref := fun _ => 0
  data := fun _ _ => 0
  free := fun f => decide (f < 4)

theorem start_bootState (segments : List Vma) : Start {f | f < 4} (bootState segments) :=
  ⟨fun _ _ => rfl, fun _ => rfl, fun _ => decide_eq_true_iff⟩

/-- A segment of one page at `USERBASE`. -/
def userPage (vmFlags : VmFlags) : Vma := ⟨0x200000, 0x201000, vmFlags⟩

/-- A page is mapped, the process forks, the child faults and stores. -/
theorem cow_isolation_fork : ∃ es s,
    Trace (Step fun _ _ => True) (bootState [userPage (VM_READ ||| VM_WRITE)]) es s ∧
      es.length = 4 ∧ FramesRight {f | f < 4} s ∧
      view s = es.foldl Space.apply (view (bootState [userPage (VM_READ ||| VM_WRITE)])) :=
  have hrun := (((Trace.nil.snoc
    ⟨.insert ⟨true, some 0⟩ 0 512 (PTE_U ||| PTE_R ||| PTE_W) fun _ => 7, trivial, rfl⟩).snoc
    ⟨.fork (fun _ => true) 1 0 512 513, trivial, rfl⟩).snoc
    ⟨.fault ⟨true, some 1⟩ 1 PTE_W 0x200010, trivial, rfl⟩).snoc
    ⟨.store 1 512 ⟨16, by decide⟩ 8, trivial, rfl⟩
  ⟨_, _, hrun, rfl, cow_isolation (start_bootState _) hrun⟩

/-! ### Permissions -/

/-- Pages are mapped with the permissions of their segment. -/
def MapsAsSegment (s : State) : Call → Prop
  | .insert _ a p perm _ => has perm PTE_W = true → Writable s a p
  | _ => True

/-- A write fault on a copy-on-write page is one in a segment with `VM_WRITE`. -/
def RespectsSegment (s : State) : Call → Prop
  | .fault _ a errorCode addr => has errorCode PTE_W = true →
    mapping s (a, addr / PGSIZE) ≠ none →
    has (s.pte a (addr / PGSIZE)).flags PTE_COW = true → Writable s a (addr / PGSIZE)
  | _ => True

/-- A writable page lies in a writable segment. -/
def SegmentPermissions (s : State) : Prop :=
  ∀ x f, mapping s x = some f → has (s.pte x.1 x.2).flags PTE_W = true → Writable s x.1 x.2

theorem CallSpec.segmentPermissions (hc : CallSpec pool s call e s') (h : SegmentPermissions s)
    (hmaps : MapsAsSegment s call) (hrespects : RespectsSegment s call) :
    SegmentPermissions s' := by
  intro x f hx hw
  have hwritable : Writable s x.1 x.2 := by
    rcases hc.write x f hx hw with ⟨hne, hw'⟩ | hgains
    · obtain ⟨g, hg⟩ := Option.ne_none_iff_exists'.mp hne
      exact h x g hg hw'
    · cases call with
      | insert answers a p perm d =>
        obtain ⟨hxa, hperm⟩ := hgains
        obtain ⟨rfl, rfl⟩ := Prod.mk.inj hxa
        exact hmaps hperm
      | fault answers a errorCode addr =>
        obtain ⟨hxa, ⟨-, hwr⟩ | ⟨hne, hcow, hwrite⟩⟩ := hgains
        · exact hwr
        · obtain ⟨hx₁, hx₂⟩ := Prod.mk.inj hxa
          rw [hx₁, hx₂] at hne hcow ⊢
          exact hrespects hwrite hne hcow
      | fork answer dst src start stop => exact hgains.elim
      | store a p i b => exact hgains.elim
      | unmap a start stop => exact hgains.elim
      | remove a p => exact hgains.elim
  obtain ⟨vma, hfind, hflags⟩ := hwritable
  exact ⟨vma, by rw [findVma, hc.mmapList]; exact hfind, hflags⟩

/-- A fault on a mapped page that is not copy-on-write fails and changes nothing. -/
theorem doPgfault_mapped (h : Sharing pool ∅ s) {addr : ℕ}
    (hx : mapping s (a, addr / PGSIZE) = some f)
    (hcow : has (s.pte a (addr / PGSIZE)).flags PTE_COW = false) (answers : Answers)
    (errorCode : Perm) : doPgfault answers a errorCode addr s = (-E_INVAL, s) := by
  rw [doPgfault]
  simp only
  cases findVma (s.mm a) (addr / PGSIZE * PGSIZE) with
  | none => rfl
  | some vma =>
    simp only [getPte_eq_self (h.hasTable hx), (mapping_eq_some.mp hx).1, hcow, Bool.false_and,
      Bool.false_eq_true, if_false, if_true, ite_self]

/-- **Permissions and copy-on-write.** -/
theorem cow_keeps_permissions (h₀ : Start pool s₀)
    (hrun : Trace (Step fun s call => MapsAsSegment s call ∧ RespectsSegment s call) s₀ es s) :
    (∀ a p, has (s.pte a p).flags PTE_V = true → has (s.pte a p).flags PTE_W = true →
        Writable s a p) ∧
      (∀ answers a errorCode addr s', doPgfault answers a errorCode addr s = (0, s') →
        ((has (s'.pte a (addr / PGSIZE)).flags PTE_W = true → Writable s' a (addr / PGSIZE)) ↔
          RespectsSegment s (.fault answers a errorCode addr))) ∧
      ∀ a addr, ¬ Writable s a (addr / PGSIZE) → mapping s (a, addr / PGSIZE) ≠ none →
        (∀ i b, s.call (.store a (addr / PGSIZE) i b) = none) ∧
        (has (s.pte a (addr / PGSIZE)).flags PTE_COW = false → ∀ answers errorCode,
          doPgfault answers a errorCode addr s = (-E_INVAL, s)) := by
  have hstep : ∀ t e t', Sharing pool ∅ t ∧ SegmentPermissions t →
      Step (fun s call => MapsAsSegment s call ∧ RespectsSegment s call) t e t' →
      (Sharing pool ∅ t' ∧ SegmentPermissions t') ∧ view t' = (view t).apply e := by
    rintro t e t' ⟨ht, hperm⟩ ⟨call, ⟨hmaps, hrespects⟩, hcall⟩
    have hc := ht.callSpec hcall
    exact ⟨⟨hc.sharing, hc.segmentPermissions hperm hmaps hrespects⟩, hc.view⟩
  have hperm₀ : SegmentPermissions s₀ := fun x f hx =>
    absurd (hx.symm.trans (h₀.mapping x)) (Option.some_ne_none f)
  obtain ⟨⟨h, hperm⟩, -⟩ := hrun.foldl hstep ⟨h₀.sharing, hperm₀⟩
  have hpage : ∀ a p, has (s.pte a p).flags PTE_V = true → has (s.pte a p).flags PTE_W = true →
      Writable s a p := fun a p hv hw => hperm (a, p) _ (mapping_eq_some.mpr ⟨hv, rfl⟩) hw
  refine ⟨hpage, fun answers a errorCode addr s' heq => ?_, fun a addr hnot hne => ⟨fun i b => ?_, ?_⟩⟩
  · have hf := doPgfault_faults h answers a addr errorCode
    rw [heq] at hf
    have hsame : ∀ {t : State}, OnlyPage s t a (addr / PGSIZE) →
        (Writable t a (addr / PGSIZE) ↔ Writable s a (addr / PGSIZE)) := by
      intro t ho
      rw [Writable, Writable, findVma, findVma, ho.mmapList]
    cases hf with
    | fails hret => exact absurd rfl hret
    | fresh hfind hnone h' honly hw hview =>
      rw [hsame honly]
      refine iff_of_true (fun hc => ⟨_, hfind, (has_W_vmaPerm _).mp (hw ▸ hc)⟩) ?_
      exact fun _ hsome => absurd hnone hsome
    | cow hfind hsome hcow hwrite h' honly hw hview =>
      rw [hsame honly]
      refine ⟨fun hc _ _ _ => hc hw, fun hc _ => hc hwrite ?_ hcow⟩
      rw [hsome]
      exact Option.some_ne_none _
  · rw [State.call, if_neg]
    intro hvw
    obtain ⟨hv, hw⟩ := Bool.and_eq_true_iff.mp hvw
    exact hnot (hpage _ _ hv hw)
  · obtain ⟨f, hx⟩ := Option.ne_none_iff_exists'.mp hne
    exact fun hcow answers errorCode => doPgfault_mapped h hx hcow answers errorCode

/-- The rules of a run, for a read-only segment that is mapped and shared. -/
theorem cow_keeps_permissions_fork : ∃ es s,
    Trace (Step fun s call => MapsAsSegment s call ∧ RespectsSegment s call)
        (bootState [userPage VM_READ]) es s ∧ es.length = 2 ∧
      ∀ a p, has (s.pte a p).flags PTE_V = true → has (s.pte a p).flags PTE_W = true →
        Writable s a p :=
  have hrun := (Trace.nil.snoc
    ⟨.insert ⟨true, some 0⟩ 0 512 (PTE_U ||| PTE_R) fun _ => 7,
      ⟨fun hw => absurd hw (by decide), trivial⟩, rfl⟩).snoc
    ⟨.fork (fun _ => true) 1 0 512 513, ⟨trivial, trivial⟩, rfl⟩
  ⟨_, _, hrun, rfl, (cow_keeps_permissions (start_bootState _) hrun).1⟩

/-- A page of a segment with `VM_READ` only: the parent's write fault fails before the fork and
succeeds after it, and leaves the page writable. -/
theorem readOnly_page_becomes_writable : ∃ e e' s s' s'',
    Step MapsAsSegment (bootState [userPage VM_READ]) e s ∧ Step MapsAsSegment s e' s' ∧
      (doPgfault ⟨true, some 1⟩ 0 PTE_W 0x200010 s).1 = -E_INVAL ∧
      doPgfault ⟨true, some 1⟩ 0 PTE_W 0x200010 s' = (0, s'') ∧
      has (s''.pte 0 512).flags PTE_W = true ∧ ¬ Writable s'' 0 512 := by
  refine ⟨_, _, _, _, _, ⟨.insert ⟨true, some 0⟩ 0 512 (PTE_U ||| PTE_R) fun _ => 7,
    fun hw => absurd hw (by decide), rfl⟩, ⟨.fork (fun _ => true) 1 0 512 513, trivial, rfl⟩, rfl,
    rfl, rfl, ?_⟩
  rintro ⟨vma, hfind, hflags⟩
  obtain rfl : userPage VM_READ = vma := Option.some.inj hfind
  exact hflags (by decide)

end Ucore.Cow
