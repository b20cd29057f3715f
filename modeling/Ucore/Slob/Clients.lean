import Ucore.Slob.Kmalloc

/-!
# Runs of `kmalloc` and `kfree`

Clients ask for memory, write into what they have, and give it back.  Requests are for one byte at least: a
request for no bytes is one unit for `slob_alloc`, and then it may take the arena's block and leave no block in the
circle (`kmalloc_sizes`).

`kmalloc_serves`: in every run of such requests with sizes that fit, the memory of the clients is apart, it can be
given back, and `kmalloc` gives enough memory exactly for the sizes that fit.
-/

namespace Ucore.Slob

open Function Fallible Relation

/-- Memory that a client has: the pointer, and the size that it has asked for. -/
structure Region where
  ptr : ℕ
  size : BitVec 64
  deriving DecidableEq, Repr

/-- The units in which the bytes of the region are. -/
def Region.has (r : Region) (x : ℕ) : Prop := r.ptr ≤ x ∧ SLOB_UNIT * (x - r.ptr) < r.size.toNat

/-- The heap, and what its clients have. -/
structure Clients extends Kheap where
  held : List Region

def Clients.start (arena : ℕ) (units next : ℕ → ℕ) : Clients := ⟨⟨boot arena units next, []⟩, []⟩

inductive Call
  | kmalloc (size : BitVec 64) (pages : List ℕ) (run : Option ℕ)
  | kfree (ptr : ℕ)
  | write (units next : ℕ → ℕ)

/-- What the clients and the page allocator see to.  A pointer that is freed is `NULL` or one that `kmalloc` has
returned and that has not been freed since. -/
def Call.Enabled (arena : ℕ) (c : Clients) : Call → Prop
  | kmalloc size pages run => 0 < size.toNat ∧ Fits size ∧
      Supplies arena c.toKheap pages run (2 ^ findOrder (toInt size))
  | kfree ptr => ptr = 0 ∨ ∃ r ∈ c.held, r.ptr = ptr
  | write units next => ∀ x, (∀ r ∈ c.held, ¬ r.has x) →
      units x = c.heap.units x ∧ next x = c.heap.next x

def Call.run (turns : ℕ) (c : Clients) : Call → Except Panic Clients
  | kmalloc size pages run => do
    let (ret, k) ← Slob.kmalloc turns pages run size c.toKheap
    return ⟨k, ret.toList.map (⟨·, size⟩) ++ c.held⟩
  | kfree ptr => do
    let k ← Slob.kfree turns ptr c.toKheap
    return ⟨k, c.held.filter (·.ptr ≠ ptr)⟩
  | write units next => return { c with heap := { c.heap with units := units, next := next } }

/-- The call comes back, given turns enough. -/
def Call.Returns (c : Clients) (call : Call) (c' : Clients) : Prop :=
  ∃ N, ∀ turns, N ≤ turns → call.run turns c = .ok c'

/-- One step of a run. -/
def Clients.Next (arena : ℕ) (c c' : Clients) : Prop := ∃ call, Call.Enabled arena c call ∧ call.Returns c c'

/-- The block in which the region is: behind its header, or the pages of a big block. -/
inductive Backed (k : Kheap) (r : Region) : Prop
  | small (b : Block) (hlive : b ∈ k.live) (hptr : r.ptr = b.addr + 1)
      (hsize : r.size.toNat + SLOB_UNIT ≤ SLOB_UNIT * b.units) (hheader : k.heap.units b.addr = b.units)
      (hbig : ∀ bb ∈ k.bigblocks, bb.addr ≠ b.addr)
  | big (bb : Bigblock) (hbig : bb ∈ k.bigblocks) (hptr : r.ptr = bb.pages * PAGE_UNITS)
      (hsize : r.size.toNat ≤ PAGE_SIZE * 2 ^ bb.order)

/-- The heap as its clients leave it. -/
structure ClientsOk (arena : ℕ) (c : Clients) : Prop where
  wellFormed : ∃ t, WellFormed arena c.toState t
  big : ∀ bb ∈ c.bigblocks, ∀ x, bb.region.has x → x ≠ arena ∧ x / PAGE_UNITS ∉ c.heap.pages
  bigApart : c.bigblocks.Pairwise fun bb bb' => ∀ x, bb.region.has x → ¬ bb'.region.has x
  header : ∀ bb ∈ c.bigblocks, bb.header ∈ c.live
  headers : (c.bigblocks.map Bigblock.addr).Nodup
  positive : ∀ r ∈ c.held, 0 < r.size.toNat
  backed : ∀ r ∈ c.held, Backed c.toKheap r
  heldApart : c.held.Pairwise fun r r' => ∀ x, r.has x → ¬ r'.has x

variable {arena x : ℕ} {c c' : Clients} {k k' : Kheap} {h : Heap} {t pages : List ℕ} {run : Option ℕ} {count : ℕ}
  {size : BitVec 64} {r : Region}

theorem clientsOk_start (units next : ℕ → ℕ) : ClientsOk arena (.start arena units next) :=
  ⟨⟨[], wellFormed_boot units next⟩, fun _ hbb => absurd hbb List.not_mem_nil, .nil,
    fun _ hbb => absurd hbb List.not_mem_nil, .nil, fun _ hr => absurd hr List.not_mem_nil,
    fun _ hr => absurd hr List.not_mem_nil, .nil⟩

/-- The heap of the clients is sound. -/
def ClientsOk.sound (hok : ClientsOk arena c) : SoundHeap arena := ⟨c.toKheap, hok.wellFormed, hok.big⟩

/-! ### Regions and blocks -/

/-- A region is in an allocated block. -/
theorem Backed.block (hr : Backed k r) : ∃ b ∈ k.allocated, ∀ x, r.has x → b.has x := by
  cases hr with
  | small b hlive hptr hsize =>
    refine ⟨b, List.mem_append_left _ hlive, fun x ⟨hlow, hhigh⟩ => ?_⟩
    simp only [Block.has, SLOB_UNIT] at hsize hhigh ⊢
    omega
  | big bb hbig hptr hsize =>
    refine ⟨bb.region, List.mem_append_right _ (List.mem_map_of_mem hbig), fun x ⟨hlow, hhigh⟩ => ?_⟩
    simp only [Block.has, Bigblock.region, PAGE_UNITS, PAGE_SIZE, SLOB_UNIT] at hptr hsize hhigh ⊢
    omega

/-- A block in the pages of the heap is in no big block. -/
theorem ClientsOk.not_big (hok : ClientsOk arena c) {b : Block} (hb : b ∈ c.live) (hx : b.has x) :
    ∀ bb ∈ c.bigblocks, ¬ bb.region.has x := by
  obtain ⟨t, hw⟩ := hok.wellFormed
  exact fun bb hbb hbx => (hok.big bb hbb x hbx).2 (hw.liveWithin b hb x hx)

/-- Where no two have a unit in common, two with a common unit are one. -/
theorem eq_of_apart {α : Type*} {has : α → ℕ → Prop} {l : List α}
    (hl : l.Pairwise fun a b => ∀ x, has a x → ¬ has b x) {a b : α} (ha : a ∈ l) (hb : b ∈ l) (hax : has a x)
    (hbx : has b x) : a = b := by
  have : Std.Symm fun a b => ∀ x, has a x → ¬ has b x := ⟨fun _ _ hab x hb ha => hab x ha hb⟩
  by_contra hne
  exact hl.forall ha hb hne x hax hbx

/-- No header is in a region. -/
theorem ClientsOk.header_not_held (hok : ClientsOk arena c) {d : Block} (hd : d ∈ c.live) :
    ∀ r ∈ c.held, ¬ r.has d.addr := by
  obtain ⟨t, hw⟩ := hok.wellFormed
  have hself : d.has d.addr := ⟨le_rfl, Nat.lt_add_of_pos_right (hw.livePos d hd)⟩
  intro r hr hx
  cases hok.backed r hr with
  | small b hlive hptr hsize =>
    have hbx : b.has d.addr := by
      obtain ⟨hlow, hhigh⟩ := hx
      simp only [Block.has, SLOB_UNIT] at hsize hhigh ⊢
      omega
    obtain rfl := eq_of_apart hw.livePairwise hlive hd hbx hself
    exact absurd hx.1 (by omega)
  | big bb hbig hptr hsize =>
    refine hok.not_big hd hself bb hbig ?_
    obtain ⟨hlow, hhigh⟩ := hx
    simp only [Block.has, Bigblock.region, PAGE_UNITS, PAGE_SIZE, SLOB_UNIT] at hptr hsize hhigh ⊢
    omega

/-- No free unit is in a region. -/
theorem ClientsOk.free_not_held (hok : ClientsOk arena c) (hw : WellFormed arena c.toState t)
    (hx : c.heap.covers (c.heap.slobfree :: t) x) : ∀ r ∈ c.held, ¬ r.has x := by
  intro r hr hrx
  obtain ⟨b, hb, hin⟩ := (hok.backed r hr).block
  have hs : Supplies arena c.toKheap [] none 0 := ⟨nofun, nofun, nofun⟩
  exact Grown.not_allocated (k := hok.sound) hw hs (.inl ⟨rfl, rfl⟩) hx b hb (hin x hrx)

/-! ### `kmalloc` -/

/-- A heap with more blocks, and with more big blocks whose pages nobody had. -/
theorem ClientsOk.grow (hok : ClientsOk arena c) (hs : Supplies arena c.toKheap pages run count)
    (hchanged : Changed arena c.toState pages k.toState t) (hlive : c.live ⊆ k.live)
    (hold : c.bigblocks ⊆ k.bigblocks)
    (hnew : ∀ bb ∈ k.bigblocks, bb ∈ c.bigblocks ∨ bb.header ∈ k.live ∧ (∀ b ∈ c.live, b.addr ≠ bb.addr) ∧
      ∀ x, bb.region.has x → x ≠ arena ∧ x / PAGE_UNITS ∉ k.heap.pages)
    (hapart : k.bigblocks.Pairwise fun bb bb' => ∀ x, bb.region.has x → ¬ bb'.region.has x)
    (hheaders : (k.bigblocks.map Bigblock.addr).Nodup) : ClientsOk arena ⟨k, c.held⟩ := by
  refine ⟨⟨t, hchanged.wellFormed⟩, fun bb hbb x hx => ?_, hapart, fun bb hbb => ?_, hheaders, hok.positive,
    fun r hr => ?_, hok.heldApart⟩
  · rcases hnew bb hbb with hmem | ⟨-, -, hregion⟩
    · obtain ⟨hne, hnot⟩ := hok.big bb hmem x hx
      refine ⟨hne, fun hin => ?_⟩
      rcases hchanged.pages _ hin with hin | hin
      · exact hnot hin
      · exact hs.freshBig _ hin bb hmem x hx rfl
    · exact hregion x hx
  · rcases hnew bb hbb with hmem | ⟨hmem, -⟩
    · exact hlive (hok.header bb hmem)
    · exact hmem
  · cases hok.backed r hr with
    | small b hb hptr hsize hheader hbig =>
      refine .small b (hlive hb) hptr hsize ((hchanged.units b hb (hlive hb)).trans hheader) fun bb hbb => ?_
      rcases hnew bb hbb with hmem | ⟨-, hne, -⟩
      · exact hbig bb hmem
      · exact (hne b hb).symm
    | big bb hbig hptr hsize => exact .big bb (hold hbig) hptr hsize

/-- A new region for a client. -/
theorem ClientsOk.hold (hok : ClientsOk arena c) (hr : Backed c.toKheap r) (hpos : 0 < r.size.toNat)
    (hapart : ∀ r' ∈ c.held, ∀ x, r.has x → ¬ r'.has x) : ClientsOk arena { c with held := r :: c.held } :=
  ⟨hok.wellFormed, hok.big, hok.bigApart, hok.header, hok.headers,
    List.forall_mem_cons.2 ⟨hpos, hok.positive⟩, List.forall_mem_cons.2 ⟨hr, hok.backed⟩,
    List.pairwise_cons.2 ⟨hapart, hok.heldApart⟩⟩

/-- What is apart from the allocated blocks is apart from the regions. -/
theorem ClientsOk.apart (hok : ClientsOk arena c) (hx : ∀ b ∈ c.allocated, ¬ b.has x) :
    ∀ r ∈ c.held, ¬ r.has x := by
  intro r hr hrx
  obtain ⟨b, hb, hin⟩ := (hok.backed r hr).block
  exact hx b hb (hin x hrx)

/-- A request below a page. -/
theorem ClientsOk.malloc_small (hok : ClientsOk arena c) (hs : Supplies arena c.toKheap pages run count)
    (hpos : 0 < size.toNat) (hsize : size.toNat < 4064) :
    ∃ c', (Call.kmalloc size pages run).Returns c c' ∧ ClientsOk arena c' := by
  obtain ⟨t, hw⟩ := hok.wellFormed
  have hlimit : size.toNat + SLOB_UNIT + SLOB_UNIT < PAGE_SIZE := by
    simp only [SLOB_UNIT, PAGE_SIZE]
    omega
  have hunits : 1 < slobUnits (size.toNat + SLOB_UNIT) := by
    simp only [slobUnits, SLOB_UNIT]
    omega
  have hpath : size.toNat < PAGE_SIZE - SLOB_UNIT := by omega
  obtain ⟨N, ret, hrun, hret⟩ := hw.alloc hlimit hunits hs.fresh
  rcases hret with ⟨rfl, -⟩ | ⟨m, h, t', rfl, hself, hchanged⟩
  · refine ⟨c, ⟨N, fun turns hturns => ?_⟩, hok⟩
    rw [Call.run, Slob.kmalloc, if_pos hpath, hrun turns hturns]
    rfl
  · have hgrown : ClientsOk arena ⟨c.toKheap.grant m h, c.held⟩ :=
      hok.grow hs hchanged (List.subset_cons_self _ _) (List.Subset.refl _) (fun _ => .inl) hok.bigApart hok.headers
    have hbacked : Backed (c.toKheap.grant m h) ⟨m + 1, size⟩ := by
      refine .small ⟨m, h.units m⟩ List.mem_cons_self rfl ?_ rfl fun bb hbb => ?_
      · show size.toNat + SLOB_UNIT ≤ SLOB_UNIT * h.units m
        rw [hself]
        simp only [slobUnits, SLOB_UNIT]
        omega
      · exact hchanged.wellFormed.addr_ne (hok.header bb hbb)
    refine ⟨_, ⟨N, fun turns hturns => ?_⟩, hgrown.hold hbacked hpos fun r hr x hx => ?_⟩
    · rw [Call.run, Slob.kmalloc, if_pos hpath, hrun turns hturns]
      rfl
    · refine hok.apart (Changed.apart (k := hok.sound) hs hchanged ?_).2 r hr
      obtain ⟨hlow, hhigh⟩ := hx
      show m ≤ x ∧ x < m + h.units m
      rw [hself]
      simp only [slobUnits, SLOB_UNIT] at hlow hhigh ⊢
      omega

/-- A request of a page or more. -/
theorem ClientsOk.malloc_large (hok : ClientsOk arena c)
    (hs : Supplies arena c.toKheap pages run (2 ^ findOrder (toInt size))) (hsize : 4080 ≤ size.toNat)
    (hle : size.toNat ≤ PAGE_SIZE * 2 ^ findOrder (toInt size)) :
    ∃ c', (Call.kmalloc size pages run).Returns c c' ∧ ClientsOk arena c' := by
  obtain ⟨N, ret, hrun, hret⟩ := kmalloc_large hok.sound hs hsize
  rcases hret with ⟨h, t, rfl, -, hchanged⟩ | ⟨m, h, first, t, rfl, hself, hchanged, rfl⟩
  · refine ⟨⟨{ c.toKheap with heap := h }, c.held⟩, ⟨N, fun turns hturns => ?_⟩, ?_⟩
    · have hrun' : Slob.kmalloc turns pages run size c.toKheap = _ := hrun turns hturns
      rw [Call.run, hrun']
      rfl
    · exact hok.grow hs hchanged (List.Subset.refl _) (List.Subset.refl _) (fun _ => .inl) hok.bigApart hok.headers
  · have hpages : ∀ x, Bigblock.region ⟨m, findOrder (toInt size), first⟩ |>.has x → x ≠ arena ∧
        x / PAGE_UNITS ∉ h.pages := by
      intro x hx
      obtain ⟨hlow, hhigh⟩ := Bigblock.has_region hx
      obtain ⟨hne, hheap, hnew, -⟩ := (hs.run first rfl).2 x hlow hhigh
      exact ⟨hne, fun hin => (hchanged.pages _ hin).elim hheap hnew⟩
    have hfar : ∀ x, Bigblock.region ⟨m, findOrder (toInt size), first⟩ |>.has x →
        ∀ b ∈ c.allocated, ¬ b.has x := fun x hx =>
      Supplies.apart (k := hok.sound) hs (Bigblock.has_region hx).1 (Bigblock.has_region hx).2
    have hgrown : ClientsOk arena ⟨{ c.toKheap.grant m h with
        heap := setBigblock m (findOrder (toInt size)) first h
        bigblocks := ⟨m, findOrder (toInt size), first⟩ :: c.bigblocks }, c.held⟩ := by
      refine hok.grow hs hchanged (List.subset_cons_self _ _) (List.subset_cons_self _ _) (fun bb hbb => ?_)
        (List.pairwise_cons.2 ⟨fun bb hbb x hx => ?_, hok.bigApart⟩) (List.nodup_cons.2 ⟨fun hmem => ?_, hok.headers⟩)
      · rcases List.mem_cons.1 hbb with rfl | hmem
        · refine .inr ⟨?_, fun b hb => hchanged.wellFormed.addr_ne hb, hpages⟩
          rw [Bigblock.header, ← hself]
          exact List.mem_cons_self
        · exact .inl hmem
      · exact hfar x hx _ (List.mem_append_right _ (List.mem_map_of_mem hbb))
      · obtain ⟨bb, hbb, heq⟩ := List.mem_map.1 hmem
        exact hchanged.wellFormed.addr_ne (hok.header bb hbb) heq
    refine ⟨_, ⟨N, fun turns hturns => ?_⟩, hgrown.hold (r := ⟨first * PAGE_UNITS, size⟩)
      (.big _ List.mem_cons_self rfl hle) (by simp only; omega) fun r hr x hx => ?_⟩
    · have hrun' : Slob.kmalloc turns pages (some first) size c.toKheap = _ := hrun turns hturns
      rw [Call.run, hrun']
      rfl
    · refine hok.apart (hfar x ?_) r hr
      obtain ⟨hlow, hhigh⟩ := hx
      simp only [Block.has, Bigblock.region, PAGE_UNITS, SLOB_UNIT, PAGE_SIZE] at hlow hhigh hle ⊢
      omega

/-! ### `kfree` -/

/-- What a client keeps when another region is given back. -/
theorem ClientsOk.drop {ptr : ℕ} (hok : ClientsOk arena c) (hchanged : Changed arena c.toState [] k.toState t)
    (hbig : k.bigblocks.Sublist c.bigblocks) (hheader : ∀ bb ∈ k.bigblocks, bb.header ∈ k.live)
    (hbacked : ∀ r ∈ c.held, r.ptr ≠ ptr → Backed k r) : ClientsOk arena ⟨k, c.held.filter (·.ptr ≠ ptr)⟩ := by
  refine ⟨⟨t, hchanged.wellFormed⟩, fun bb hbb x hx => ?_, hok.bigApart.sublist hbig, hheader,
    hok.headers.sublist (hbig.map _), fun r hr => hok.positive r (List.mem_of_mem_filter hr), fun r hr => ?_,
    hok.heldApart.filter _⟩
  · obtain ⟨hne, hnot⟩ := hok.big bb (hbig.subset hbb) x hx
    exact ⟨hne, fun hin => hnot ((hchanged.pages _ hin).resolve_right List.not_mem_nil)⟩
  · obtain ⟨hmem, hne⟩ := List.mem_filter.1 hr
    exact hbacked r hmem (of_decide_eq_true hne)

/-- A small block goes back, also if its memory begins a page. -/
theorem ClientsOk.free_small (hok : ClientsOk arena c) {b : Block} (hb : b ∈ c.live) (hunits : 1 < b.units)
    (hheader : c.heap.units b.addr = b.units) (hbig : ∀ bb ∈ c.bigblocks, bb.addr ≠ b.addr) :
    ∃ c', (Call.kfree (b.addr + 1)).Returns c c' ∧ ClientsOk arena c' := by
  obtain ⟨t, hw⟩ := hok.wellFormed
  have hfind : c.toKheap.findBigblock (b.addr + 1) = none := by
    rw [Kheap.findBigblock]
    split
    case isFalse => rfl
    case isTrue =>
      refine List.find?_eq_none.2 fun bb hbb heq => ?_
      refine hok.not_big hb (x := b.addr + 1) ⟨Nat.le_succ _, by omega⟩ bb hbb ?_
      rw [← of_decide_eq_true heq]
      exact ⟨le_rfl, Nat.lt_add_of_pos_right (Nat.mul_pos (by decide) (Nat.two_pow_pos _))⟩
  obtain ⟨h, t', hfree, hchanged⟩ := hw.free hb (.inl ⟨rfl, hheader⟩)
  refine ⟨⟨⟨⟨h, c.live.erase b⟩, c.bigblocks⟩, c.held.filter (·.ptr ≠ b.addr + 1)⟩,
    ⟨t.length + 1, fun turns hturns => ?_⟩, hok.drop hchanged (List.Sublist.refl _) (fun bb hbb => ?_)
      fun r hr hne => ?_⟩
  · rw [Call.run, Slob.kfree, if_neg (Nat.succ_ne_zero _), hfind, Nat.add_sub_cancel]
    simp only [hfree turns hturns, bind_ok, hheader]
    rfl
  · refine (List.mem_erase_of_ne fun heq => hbig bb hbb ?_).2 (hok.header bb hbb)
    exact congrArg Block.addr heq
  · cases hok.backed r hr with
    | small d hd hptr hsize hheader' hbig' =>
      have hmem : d ∈ c.live.erase b :=
        (List.mem_erase_of_ne fun heq => hne (hptr.trans (congrArg (Block.addr · + 1) heq))).2 hd
      exact .small d hmem hptr hsize ((hchanged.units d hd hmem).trans hheader') hbig'
    | big bb hbb hptr hsize => exact .big bb hbb hptr hsize

/-- A big block goes back with its header. -/
theorem ClientsOk.free_big (hok : ClientsOk arena c) {bb : Bigblock} (hbb : bb ∈ c.bigblocks)
    (hnull : bb.pages ≠ 0) :
    ∃ c', (Call.kfree (bb.pages * PAGE_UNITS)).Returns c c' ∧ ClientsOk arena c' := by
  obtain ⟨t, hw⟩ := hok.wellFormed
  have hfirst : ∀ bb' : Bigblock, bb'.region.has (bb'.pages * PAGE_UNITS) := fun bb' =>
    ⟨le_rfl, Nat.lt_add_of_pos_right (Nat.mul_pos (by decide) (Nat.two_pow_pos _))⟩
  have hfind : c.toKheap.findBigblock (bb.pages * PAGE_UNITS) = some bb := by
    rw [Kheap.findBigblock, if_pos (Nat.mul_mod_left _ _)]
    cases hsome : c.bigblocks.find? fun bb' => bb'.pages * PAGE_UNITS = bb.pages * PAGE_UNITS with
    | none => exact absurd (decide_eq_true rfl) (List.find?_eq_none.1 hsome bb hbb)
    | some bb' =>
      have heq : bb'.pages * PAGE_UNITS = bb.pages * PAGE_UNITS := by simpa using List.find?_some hsome
      have hshared : bb.region.has (bb'.pages * PAGE_UNITS) := by
        rw [heq]
        exact hfirst bb
      rw [eq_of_apart hok.bigApart (List.mem_of_find?_eq_some hsome) hbb (hfirst bb') hshared]
  obtain ⟨h, t', hfree, hchanged⟩ := hw.free (hok.header bb hbb)
    (.inr ⟨show sizeofBigblock ≠ 0 by decide, rfl⟩)
  have hnodup : ∀ bb' ∈ c.bigblocks.erase bb, bb'.addr ≠ bb.addr := by
    intro bb' hbb' heq
    have hnodup := hok.headers.of_map
    obtain ⟨hne, hmem⟩ := hnodup.mem_erase_iff.1 hbb'
    exact hne (List.inj_on_of_nodup_map hok.headers hmem hbb heq)
  refine ⟨⟨⟨⟨h, c.live.erase bb.header⟩, c.bigblocks.erase bb⟩, c.held.filter (·.ptr ≠ bb.pages * PAGE_UNITS)⟩,
    ⟨t.length + 1, fun turns hturns => ?_⟩, hok.drop hchanged List.erase_sublist (fun bb' hbb' => ?_)
      fun r hr hne => ?_⟩
  · rw [Call.run, Slob.kfree, if_neg (Nat.mul_ne_zero hnull (by decide)), hfind]
    have hfree' := hfree turns hturns
    simp only [Bigblock.header] at hfree'
    simp only [hfree', bind_ok]
    rfl
  · refine (List.mem_erase_of_ne fun heq => hnodup bb' hbb' ?_).2 (hok.header bb' (List.mem_of_mem_erase hbb'))
    exact congrArg Block.addr heq
  · cases hok.backed r hr with
    | small d hd hptr hsize hheader hbig =>
      have hmem : d ∈ c.live.erase bb.header :=
        (List.mem_erase_of_ne fun heq => hbig bb hbb (congrArg Block.addr heq).symm).2 hd
      exact .small d hmem hptr hsize ((hchanged.units d hd hmem).trans hheader) fun bb' hbb' =>
        hbig bb' (List.mem_of_mem_erase hbb')
    | big bb' hbb' hptr hsize =>
      refine .big bb' ((List.mem_erase_of_ne fun heq => hne ?_).2 hbb') hptr hsize
      rw [hptr, heq]

/-! ### Runs -/

/-- Clients write into their regions, and there is no header. -/
theorem ClientsOk.write (hok : ClientsOk arena c) {units next : ℕ → ℕ}
    (hkeep : ∀ x, (∀ r ∈ c.held, ¬ r.has x) → units x = c.heap.units x ∧ next x = c.heap.next x) :
    ClientsOk arena { c with heap := { c.heap with units := units, next := next } } := by
  obtain ⟨t, hw⟩ := hok.wellFormed
  refine ⟨⟨t, hw.write units next fun a ha => hkeep a (hok.free_not_held hw (hw.covers_header ha))⟩, hok.big,
    hok.bigApart, hok.header, hok.headers, hok.positive, fun r hr => ?_, hok.heldApart⟩
  cases hok.backed r hr with
  | small b hb hptr hsize hheader hbig =>
    exact .small b hb hptr hsize ((hkeep b.addr (hok.header_not_held hb)).1.trans hheader) hbig
  | big bb hbb hptr hsize => exact .big bb hbb hptr hsize

/-- **Step lemma.** -/
theorem ClientsOk.step (hok : ClientsOk arena c) {call : Call} (hcall : call.Enabled arena c) :
    ∃ c', call.Returns c c' ∧ ClientsOk arena c' := by
  cases call with
  | kmalloc size pages run =>
    obtain ⟨hpos, hfits, hs⟩ := hcall
    rcases hfits with hsmall | hlarge
    · exact hok.malloc_small hs hpos hsmall
    · exact hok.malloc_large hs hlarge.1 ((le_findOrder_toInt_iff size).2 hlarge.2)
  | kfree ptr =>
    rcases Nat.eq_zero_or_pos ptr with rfl | hnull
    · obtain ⟨t, hw⟩ := hok.wellFormed
      exact ⟨_, ⟨0, fun _ _ => rfl⟩, hok.drop (.refl hw []) (List.Sublist.refl _) hok.header
        fun r hr _ => hok.backed r hr⟩
    · obtain ⟨r, hr, rfl⟩ := hcall.resolve_left hnull.ne'
      cases hok.backed r hr with
      | small b hb hptr hsize hheader hbig =>
        have hpos := hok.positive r hr
        rw [hptr]
        refine hok.free_small hb ?_ hheader hbig
        simp only [SLOB_UNIT] at hsize
        omega
      | big bb hbb hptr hsize =>
        rw [hptr] at hnull ⊢
        exact hok.free_big hbb fun hzero => absurd hnull (by rw [hzero]; decide)
  | write units next => exact ⟨_, ⟨0, fun _ _ => rfl⟩, hok.write hcall⟩

theorem Call.Returns.unique {call : Call} {c₁ c₂ : Clients} (h : call.Returns c c₁) (h' : call.Returns c c₂) :
    c₁ = c₂ := by
  obtain ⟨N, hN⟩ := h
  obtain ⟨N', hN'⟩ := h'
  exact Except.ok.inj ((hN (max N N') (le_max_left _ _)).symm.trans (hN' (max N N') (le_max_right _ _)))

theorem ClientsOk.next (hok : ClientsOk arena c) (hstep : Clients.Next arena c c') : ClientsOk arena c' := by
  obtain ⟨call, hcall, hreturns⟩ := hstep
  obtain ⟨c₁, hreturns', hok'⟩ := hok.step hcall
  exact hreturns.unique hreturns' ▸ hok'

/-- **`kmalloc` and `kfree`.**  In every state of a run `kmalloc` gives enough memory exactly for the sizes that
fit, what the clients have got so far is apart, and all their calls come back. -/
theorem kmalloc_serves {units next : ℕ → ℕ}
    (hrun : ReflTransGen (Clients.Next arena) (.start arena units next) c) :
    (∀ size, Mallocs arena c.toKheap size ↔ Fits size) ∧
      c.held.Pairwise (fun r r' => ∀ x, r.has x → ¬ r'.has x) ∧
      ∀ call : Call, call.Enabled arena c → ∃ c', call.Returns c c' := by
  have hok := Transition.invariant (P := ClientsOk arena) (fun _ _ => ClientsOk.next) hrun
    (clientsOk_start units next)
  refine ⟨mallocs_iff hok.sound, hok.heldApart, fun call hcall => ?_⟩
  obtain ⟨c', hreturns, -⟩ := hok.step hcall
  exact ⟨c', hreturns⟩

theorem findOrder_8192 : findOrder (toInt 8192) = 1 := by
  rw [toInt_of_lt (by decide)]
  show findOrder 8192 = 1
  rw [findOrder_of_lt (by decide), findOrder_of_le (by decide)]

/-- 100 bytes in a first page and two more pages; the 100 bytes go back, and a word of the pages is written. -/
theorem kmalloc_serves_two : ∃ c, ReflTransGen (Clients.Next 100) (.start 100 (fun _ => 0) (fun _ => 0)) c ∧
    c.held = [⟨1536, 8192⟩] ∧ c.heap.units 1540 = 7 ∧ (∀ size, Mallocs 100 c.toKheap size ↔ Fits size) ∧
      ∃ c', (Call.kfree 1536).Returns c c' := by
  have hsmall : Supplies 100 (Clients.start 100 (fun _ => 0) (fun _ => 0)).toKheap [5] none
      (2 ^ findOrder (toInt 100)) := by
    refine ⟨fun page hpage => ?_, fun _ _ _ hbb => absurd hbb List.not_mem_nil, nofun⟩
    rw [List.mem_singleton.1 hpage]
    exact ⟨by decide, List.not_mem_nil, .inr (by decide)⟩
  have hpages : ∀ k : Kheap, k.heap.pages = [5] → k.bigblocks = [] →
      Supplies 100 k [] (some 6) (2 ^ findOrder (toInt 8192)) := by
    intro k hk hbig
    refine ⟨nofun, nofun, ?_⟩
    rintro _ ⟨rfl⟩
    refine ⟨by decide, fun x hlow hhigh => ?_⟩
    simp only [findOrder_8192, PAGE_UNITS] at hlow hhigh ⊢
    rw [hk, hbig, List.mem_singleton]
    exact ⟨by omega, by omega, List.not_mem_nil, fun _ hbb => absurd hbb List.not_mem_nil⟩
  have hfits : Fits 8192 := .inr ⟨by decide, (le_findOrder_toInt_iff 8192).1 (by rw [findOrder_8192]; decide)⟩
  have hrun : ReflTransGen (Clients.Next 100) (.start 100 (fun _ => 0) (fun _ => 0)) _ :=
    .tail (.tail (.tail (.single ⟨.kmalloc 100 [5] none, ⟨by decide, .inl (by decide), hsmall⟩, 10, fun turns h => by
        obtain ⟨k, rfl⟩ := Nat.exists_eq_add_of_le' h
        rfl⟩)
      ⟨.kmalloc 8192 [] (some 6), ⟨by decide, hfits, hpages _ rfl rfl⟩, 10, fun turns h => by
        obtain ⟨k, rfl⟩ := Nat.exists_eq_add_of_le' h
        rfl⟩)
      ⟨.kfree 1281, .inr ⟨⟨1281, 100⟩, .tail _ (.head _), rfl⟩, 10, fun turns h => by
        obtain ⟨k, rfl⟩ := Nat.exists_eq_add_of_le' h
        rfl⟩)
      ⟨.write (update _ 1540 7) _, fun x hx => ⟨update_of_ne (fun heq => hx ⟨1536, 8192⟩ (.head _) (by
        rw [heq]
        exact ⟨by decide, by decide⟩)) _ _, rfl⟩, 10, fun turns h => rfl⟩
  obtain ⟨hmallocs, -, hreturns⟩ := kmalloc_serves hrun
  exact ⟨_, hrun, rfl, rfl, hmallocs, hreturns (.kfree 1536) (.inr ⟨⟨1536, 8192⟩, .head _, rfl⟩)⟩

/-- The heap after boot. -/
def emptyHeap : SoundHeap 100 where
  toState := boot 100 (fun _ => 0) (fun _ => 0)
  bigblocks := []
  wellFormed := ⟨[], wellFormed_boot _ _⟩
  big := nofun

/-- A request of 4064 bytes stops the kernel, and for 8193 bytes there are two pages only.  Behind a request for no
bytes two requests for 8 bytes get one block. -/
theorem kmalloc_sizes : ¬ Mallocs 100 emptyHeap.toKheap 4064 ∧ ¬ Mallocs 100 emptyHeap.toKheap 8193 ∧
    (do
      let (p, k) ← kmalloc 10 [5] none 8 emptyHeap.toKheap
      let (_, k) ← kmalloc 10 [] none 8 k
      let k ← kfree 10 (p.getD 0) k
      let (_, k) ← kmalloc 10 [] none 4016 k
      let (_, k) ← kmalloc 10 [] none 0 k
      let (q, k) ← kmalloc 10 [] none 8 k
      let (r, _) ← kmalloc 10 [] none 8 k
      return (q, r)) = Except.ok (some 1281, some 1281) := by
  have horder : findOrder (toInt 8193) = 1 := by
    rw [toInt_of_lt (by decide)]
    show findOrder 8193 = 1
    rw [findOrder_of_lt (by decide), findOrder_of_le (by decide)]
  refine ⟨not_mallocs_of_panic _ (by decide) (by decide), not_mallocs_of_large emptyHeap (by decide) ?_, ?_⟩
  · rw [horder]
    decide
  · decide +kernel

end Ucore.Slob
