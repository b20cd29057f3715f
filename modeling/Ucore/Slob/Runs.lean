import Mathlib.Data.List.Perm.Basic
import Ucore.Lib.Transition
import Ucore.Slob.Alloc

/-!
# Runs of the heap

Clients allocate and free blocks and write into the blocks they have; the page allocator has new
pages for the heap, none of them next to the arena.  A block that is freed without its size still has
it in its header.

`slob_heap`: in every run the free blocks are one circle in the order of the addresses, none touches
another or a live block, no unit is lost, and every call comes back.
-/

namespace Ucore.Slob

open Function CircularList Fallible Relation

/-- The heap at the start: `arena` alone. -/
def boot (arena : ℕ) (units next : ℕ → ℕ) : State :=
  ⟨⟨update units arena 1, update next arena arena, arena, []⟩, []⟩

inductive Op
  | alloc (size : ℕ) (pages : List ℕ)
  | free (b : Block) (size : ℕ)
  | write (units next : ℕ → ℕ)

/-- What the callers and the page allocator see to.  A write goes to live blocks. -/
def Op.Enabled (arena : ℕ) (s : State) : Op → Prop
  | alloc size pages => 17 ≤ size ∧ size < PAGE_SIZE - SLOB_UNIT ∧
      ∀ page ∈ pages, Fresh arena s.heap.pages page
  | free b size => b ∈ s.live ∧
      (size = 0 ∧ s.heap.units b.addr = b.units ∨ size ≠ 0 ∧ slobUnits size = b.units)
  | write units next => ∀ x, (∀ b ∈ s.live, ¬ b.has x) →
      units x = s.heap.units x ∧ next x = s.heap.next x

/-- One call. -/
def Op.run (turns : ℕ) (s : State) : Op → Except Panic (Option ℕ × State)
  | alloc size pages => do
    match ← slobAlloc turns pages size s.heap with
    | (some m, h) => pure (some m, ⟨h, ⟨m, h.units m⟩ :: s.live⟩)
    | (none, h) => pure (none, ⟨h, s.live⟩)
  | free b size => do
    let h ← slobFree turns b.addr size s.heap
    pure (none, ⟨h, s.live.erase b⟩)
  | write units next => pure (none, ⟨{ s.heap with units := units, next := next }, s.live⟩)

/-- The call comes back, given turns enough. -/
def Op.Returns (s : State) (op : Op) (ret : Option ℕ) (s' : State) : Prop :=
  ∃ N, ∀ turns, N ≤ turns → op.run turns s = .ok (ret, s')

/-- One step of a run. -/
def Next (arena : ℕ) (s s' : State) : Prop := ∃ op ret, Op.Enabled arena s op ∧ op.Returns s ret s'

/-- The heap and its blocks, the free blocks being `slobfree` and `t`. -/
structure WellFormed (arena : ℕ) (s : State) (t : List ℕ) : Prop where
  coalesced : Coalesced arena s.heap t
  within : Within arena s.heap t
  freeLive : ∀ x, s.heap.covers (s.heap.slobfree :: t) x → ∀ b ∈ s.live, ¬ b.has x
  livePairwise : s.live.Pairwise fun b c => ∀ x, b.has x → ¬ c.has x
  livePos : ∀ b ∈ s.live, 0 < b.units
  liveWithin : ∀ b ∈ s.live, ∀ x, b.has x → x / PAGE_UNITS ∈ s.heap.pages
  pages : ∀ page ∈ s.heap.pages, page ≠ 0 ∧
    ((page + 1) * PAGE_UNITS < arena ∨ arena + 1 < page * PAGE_UNITS)
  total : s.heap.total (s.heap.slobfree :: t) + (s.live.map Block.units).sum =
    1 + PAGE_UNITS * s.heap.pages.length

variable {arena m n x : ℕ} {s s' : State} {t t' u : List ℕ} {h h' : Heap}

theorem wellFormed_boot (units next : ℕ → ℕ) : WellFormed arena (boot arena units next) [] := by
  have hunits : (boot arena units next).heap.units arena = 1 := update_self _ _ _
  have hnext : (boot arena units next).heap.next arena = arena := update_self _ _ _
  have hmem : ∀ a ∈ [arena], a = arena := fun a ha => List.mem_singleton.1 ha
  refine ⟨⟨⟨⟨List.nodup_singleton _, hnext⟩, fun a ha => ?_, fun a ha => ?_, fun a ha c hc hlt => ?_⟩,
    fun a ha htouch => ?_, List.mem_cons_self, hunits⟩, ?_, ?_, List.Pairwise.nil, ?_, ?_, ?_, ?_⟩
  · rw [hmem a ha, hnext]
    refine .inr ⟨le_rfl, fun c hc => ?_⟩
    rw [hmem c hc]
    exact ⟨le_rfl, le_rfl⟩
  · rw [hmem a ha, hunits]
    exact Nat.one_pos
  · rw [hmem a ha, hmem c hc] at hlt
    exact absurd hlt (lt_irrefl _)
  · rw [hmem a ha, Heap.Touches, hunits, hnext] at htouch
    omega
  · rintro x ⟨a, ha, hx⟩
    rw [hmem a ha, Heap.has, hunits] at hx
    exact .inl (by omega)
  · exact fun _ _ b hb => absurd hb List.not_mem_nil
  · exact fun b hb => absurd hb List.not_mem_nil
  · exact fun b hb => absurd hb List.not_mem_nil
  · exact fun page hpage => absurd hpage List.not_mem_nil
  · show (boot arena units next).heap.total [arena] + 0 = 1
    rw [Heap.total_cons, hunits]
    rfl

theorem Op.Returns.unique {op : Op} {ret ret' : Option ℕ} {s₁ s₂ : State} (h : op.Returns s ret s₁)
    (h' : op.Returns s ret' s₂) : ret = ret' ∧ s₁ = s₂ := by
  obtain ⟨N, hN⟩ := h
  obtain ⟨N', hN'⟩ := h'
  have heq := (hN (max N N') (le_max_left _ _)).symm.trans (hN' (max N N') (le_max_right _ _))
  cases heq
  exact ⟨rfl, rfl⟩

/-! ### Steps -/

/-- What a call keeps: the headers of the blocks that are live before and after it, and the pages but for
those that it has been given. -/
structure Changed (arena : ℕ) (s : State) (pages : List ℕ) (s' : State) (t : List ℕ) : Prop where
  wellFormed : WellFormed arena s' t
  units : ∀ b ∈ s.live, b ∈ s'.live → s'.heap.units b.addr = s.heap.units b.addr
  pages : ∀ page ∈ s'.heap.pages, page ∈ s.heap.pages ∨ page ∈ pages

theorem Changed.refl (hw : WellFormed arena s t) (pages : List ℕ) : Changed arena s pages s t :=
  ⟨hw, fun _ _ _ => rfl, fun _ => .inl⟩

theorem Changed.trans {pages : List ℕ} {s₁ : State} (h : Changed arena s pages s₁ t)
    (h' : Changed arena s₁ [] s' t') (hlive : s.live ⊆ s₁.live) : Changed arena s pages s' t' := by
  refine ⟨h'.wellFormed, fun b hb hb' => ?_, fun page hpage => ?_⟩
  · exact (h'.units b (hlive hb) hb').trans (h.units b hb (hlive hb))
  · exact h.pages page ((h'.pages page hpage).resolve_right List.not_mem_nil)

/-- The header of a free block is free. -/
theorem WellFormed.covers_header (hw : WellFormed arena s t) {a : ℕ} (ha : a ∈ s.heap.slobfree :: t) :
    s.heap.covers (s.heap.slobfree :: t) a :=
  ⟨a, ha, le_rfl, Nat.lt_add_of_pos_right (hw.coalesced.freeList.pos a ha)⟩

/-- The header of a live block is not free. -/
theorem WellFormed.header_not_free (hw : WellFormed arena s t) {b : Block} (hb : b ∈ s.live) :
    ¬ s.heap.covers (s.heap.slobfree :: t) b.addr := fun hx =>
  hw.freeLive _ hx b hb ⟨le_rfl, Nat.lt_add_of_pos_right (hw.livePos b hb)⟩

theorem WellFormed.header_notMem (hw : WellFormed arena s t) {b : Block} (hb : b ∈ s.live) :
    b.addr ∉ s.heap.slobfree :: t := fun hmem => hw.header_not_free hb (hw.covers_header hmem)

/-- A new page in the heap. -/
theorem WellFormed.grow {pages : List ℕ} (hw : WellFormed arena s t)
    (hg : Grown arena pages s.heap h t u) : WellFormed arena ⟨h, s.live⟩ u := by
  rcases hg with ⟨rfl, rfl⟩ | ⟨page, -, hfresh, hfreed⟩
  · exact hw
  · have hpages : h.pages = page :: s.heap.pages := hfreed.pages
    have hdiv : ∀ x, page * PAGE_UNITS ≤ x → x < page * PAGE_UNITS + PAGE_UNITS →
        x / PAGE_UNITS = page := by
      intro x hlow hhigh
      simp only [PAGE_UNITS] at hlow hhigh ⊢
      omega
    refine ⟨hfreed.coalesced, fun x hx => ?_, fun x hx b hb hbx => ?_, hw.livePairwise, hw.livePos,
      fun b hb x hx => ?_, fun p hp => ?_, ?_⟩
    · rw [hpages, List.mem_cons]
      rcases (hfreed.covers x).1 hx with hold | ⟨hlow, hhigh⟩
      · exact (hw.within x hold).imp_right .inr
      · exact .inr (.inl (hdiv x hlow hhigh))
    · rcases (hfreed.covers x).1 hx with hold | ⟨hlow, hhigh⟩
      · exact hw.freeLive x hold b hb hbx
      · exact hfresh.not_mem (hdiv x hlow hhigh ▸ hw.liveWithin b hb x hbx)
    · rw [hpages]
      exact List.mem_cons_of_mem page (hw.liveWithin b hb x hx)
    · rw [hpages] at hp
      rcases List.mem_cons.1 hp with rfl | hp
      · exact ⟨hfresh.ne_zero, hfresh.away⟩
      · exact hw.pages p hp
    · have htotal := hw.total
      have hnew : h.total (h.slobfree :: u) = s.heap.total (s.heap.slobfree :: t) + PAGE_UNITS :=
        hfreed.total
      show h.total (h.slobfree :: u) + (s.live.map Block.units).sum = 1 + PAGE_UNITS * h.pages.length
      rw [hnew, hpages, List.length_cons, Nat.mul_succ]
      omega

theorem Grown.changed {pages : List ℕ} (hg : Grown arena pages s.heap h t u) (hw : WellFormed arena s t) :
    Changed arena s pages ⟨h, s.live⟩ u := by
  refine ⟨hw.grow hg, fun b hb _ => ?_, fun page hpage => ?_⟩
  · rcases hg with ⟨rfl, -⟩ | ⟨page, -, hfresh, hfreed⟩
    · rfl
    · have hpos := hw.livePos b hb
      refine hfreed.units _ fun hmem => ?_
      rcases List.mem_cons.1 hmem with heq | hfree
      · have hin := hw.liveWithin b hb b.addr ⟨le_rfl, Nat.lt_add_of_pos_right hpos⟩
        rw [heq, PAGE_UNITS, Nat.mul_div_cancel _ (by decide)] at hin
        exact hfresh.not_mem hin
      · exact hw.header_notMem hb hfree
  · rcases hg with ⟨rfl, -⟩ | ⟨page', hpage', -, hfreed⟩
    · exact .inl hpage
    · have hpages : h.pages = page' :: s.heap.pages := hfreed.pages
      have hmem : page ∈ page' :: s.heap.pages := hpages ▸ hpage
      rcases List.mem_cons.1 hmem with rfl | hold
      · exact .inr hpage'
      · exact .inl hold

/-- A block for a client. -/
theorem WellFormed.grant (hw : WellFormed arena s t) (hg : Granted arena s.heap h t t' m n)
    (hn : 0 < n) : WellFormed arena ⟨h, ⟨m, h.units m⟩ :: s.live⟩ t' := by
  have hblock : ∀ x, Block.has ⟨m, h.units m⟩ x ↔ m ≤ x ∧ x < m + n := by
    intro x
    rw [Block.has, hg.units_self]
  have hold : ∀ x, h.covers (h.slobfree :: t') x → s.heap.covers (s.heap.slobfree :: t) x := fun x hx =>
    (hg.covers x).2 (.inl hx)
  have hin : ∀ x, m ≤ x → x < m + n → s.heap.covers (s.heap.slobfree :: t) x := fun x hlow hhigh =>
    (hg.covers x).2 (.inr ⟨hlow, hhigh⟩)
  have harena : ∀ x, m ≤ x → x < m + n → x ≠ arena := by
    rintro x hlow hhigh rfl
    refine hg.disjoint x hlow hhigh ⟨x, hg.coalesced.arena_mem, le_rfl, ?_⟩
    rw [hg.coalesced.arena_units]
    exact Nat.lt_succ_self x
  refine ⟨hg.coalesced, fun x hx => hg.pages ▸ hw.within x (hold x hx), fun x hx b hb => ?_,
    List.pairwise_cons.2 ⟨fun b hb x hx => ?_, hw.livePairwise⟩, fun b hb => ?_, fun b hb x hx => ?_,
    hg.pages ▸ hw.pages, ?_⟩
  · rcases List.mem_cons.1 hb with rfl | hb
    · rw [hblock]
      exact fun hx' => hg.disjoint x hx'.1 hx'.2 hx
    · exact hw.freeLive x (hold x hx) b hb
  · rw [hblock] at hx
    exact hw.freeLive x (hin x hx.1 hx.2) b hb
  · rcases List.mem_cons.1 hb with rfl | hb
    · exact hn.trans_eq hg.units_self.symm
    · exact hw.livePos b hb
  · show x / PAGE_UNITS ∈ h.pages
    rw [hg.pages]
    rcases List.mem_cons.1 hb with rfl | hb
    · rw [hblock] at hx
      exact (hw.within x (hin x hx.1 hx.2)).resolve_left (harena x hx.1 hx.2)
    · exact hw.liveWithin b hb x hx
  · have htotal := hw.total
    have hnew := hg.total
    show h.total (h.slobfree :: t') + (h.units m + (s.live.map Block.units).sum) =
      1 + PAGE_UNITS * h.pages.length
    rw [hg.units_self, hg.pages]
    omega

theorem Granted.changed (hg : Granted arena s.heap h t t' m n) (hw : WellFormed arena s t) (hn : 0 < n)
    (pages : List ℕ) : Changed arena s pages ⟨h, ⟨m, h.units m⟩ :: s.live⟩ t' :=
  ⟨hw.grant hg hn, fun _ hb _ => hg.units _ (hw.header_not_free hb), fun _ hpage => .inl (hg.pages ▸ hpage)⟩

/-- The header of a new block is not that of an older one. -/
theorem WellFormed.addr_ne {b c : Block} {live : List Block} (hw : WellFormed arena ⟨h, b :: live⟩ t)
    (hc : c ∈ live) : c.addr ≠ b.addr := fun heq =>
  (List.pairwise_cons.1 hw.livePairwise).1 c hc b.addr
    ⟨le_rfl, Nat.lt_add_of_pos_right (hw.livePos b List.mem_cons_self)⟩
    ⟨heq.le, heq ▸ Nat.lt_add_of_pos_right (hw.livePos c (List.mem_cons_of_mem b hc))⟩

/-- A block goes back to the free ones. -/
theorem WellFormed.free (hw : WellFormed arena s t) {b : Block} (hb : b ∈ s.live) {size : ℕ}
    (hsize : size = 0 ∧ s.heap.units b.addr = b.units ∨ size ≠ 0 ∧ slobUnits size = b.units) :
    ∃ h t', (∀ turns, t.length < turns → slobFree turns b.addr size s.heap = .ok h) ∧
      Changed arena s [] ⟨h, s.live.erase b⟩ t' := by
  have hpos := hw.livePos b hb
  have hin : ∀ x, b.addr ≤ x → x < b.addr + b.units → x / PAGE_UNITS ∈ s.heap.pages := fun x hlow hhigh =>
    hw.liveWithin b hb x ⟨hlow, hhigh⟩
  -- the first and the last unit of the block are in pages, and those are away from the arena
  have hfirst := hw.pages _ (hin b.addr le_rfl (Nat.lt_add_of_pos_right hpos))
  have hlast := hw.pages _ (hin (b.addr + b.units - 1) (by omega) (by omega))
  simp only [PAGE_UNITS] at hfirst hlast
  obtain ⟨h, t', hrun, hfreed⟩ := slobFree_ok hw.coalesced (b := b.addr) (by omega) hpos hsize
    (fun x hlow hhigh hx => hw.freeLive x hx b hb ⟨hlow, hhigh⟩) (by omega) (by omega)
  have hperm : s.live.Perm (b :: s.live.erase b) := List.perm_cons_erase hb
  have hsymm : ∀ {c d : Block}, (∀ x, c.has x → ¬ d.has x) → ∀ x, d.has x → ¬ c.has x :=
    fun hcd x hd hc => hcd x hc hd
  obtain ⟨hbrest, hrest⟩ := List.pairwise_cons.1 ((hperm.pairwise_iff hsymm).1 hw.livePairwise)
  have hsub : ∀ c ∈ s.live.erase b, c ∈ s.live := fun c hc => List.mem_of_mem_erase hc
  refine ⟨h, t', hrun, ⟨hfreed.coalesced, fun x hx => ?_, fun x hx c hc hcx => ?_, hrest,
    fun c hc => hw.livePos c (hsub c hc), fun c hc x hx => ?_, hfreed.pages ▸ hw.pages, ?_⟩,
    fun c hc hc' => hfreed.units _ fun hmem => ?_, fun page hpage => .inl (hfreed.pages ▸ hpage)⟩
  · rw [hfreed.pages]
    rcases (hfreed.covers x).1 hx with hold | ⟨hlow, hhigh⟩
    · exact hw.within x hold
    · exact .inr (hin x hlow hhigh)
  · rcases (hfreed.covers x).1 hx with hold | hbx
    · exact hw.freeLive x hold c (hsub c hc) hcx
    · exact hbrest c hc x hbx hcx
  · show x / PAGE_UNITS ∈ h.pages
    rw [hfreed.pages]
    exact hw.liveWithin c (hsub c hc) x hx
  · have htotal := hw.total
    have hnew := hfreed.total
    have hsum : (s.live.map Block.units).sum = b.units + ((s.live.erase b).map Block.units).sum :=
      (hperm.map Block.units).sum_eq
    show h.total (h.slobfree :: t') + ((s.live.erase b).map Block.units).sum =
      1 + PAGE_UNITS * h.pages.length
    rw [hfreed.pages]
    omega
  · rcases List.mem_cons.1 hmem with heq | hfree
    · exact hbrest c hc' b.addr ⟨le_rfl, Nat.lt_add_of_pos_right hpos⟩
        ⟨heq.le, heq ▸ Nat.lt_add_of_pos_right (hw.livePos c hc)⟩
    · exact hw.header_notMem hc hfree

/-- Nobody but the heap writes into the headers of free blocks. -/
theorem WellFormed.write (hw : WellFormed arena s t) (units next : ℕ → ℕ)
    (hheader : ∀ a ∈ s.heap.slobfree :: t, units a = s.heap.units a ∧ next a = s.heap.next a) :
    WellFormed arena ⟨{ s.heap with units := units, next := next }, s.live⟩ t := by
  have hunits : ∀ a ∈ s.heap.slobfree :: t, units a = s.heap.units a := fun a ha => (hheader a ha).1
  have hcovers : ∀ x, Heap.covers { s.heap with units := units, next := next } (s.heap.slobfree :: t) x ↔
      s.heap.covers (s.heap.slobfree :: t) x := fun x => Heap.covers_congr hunits
  refine ⟨⟨hw.coalesced.freeList.congr (fun a ha => (hheader a ha).2) hunits, fun a ha htouch => ?_,
    hw.coalesced.arena_mem, (hunits _ hw.coalesced.arena_mem).trans hw.coalesced.arena_units⟩,
    fun x hx => hw.within x ((hcovers x).1 hx), fun x hx => hw.freeLive x ((hcovers x).1 hx),
    hw.livePairwise, hw.livePos, hw.liveWithin, hw.pages, ?_⟩
  · refine hw.coalesced.notTouches a ha ?_
    rw [Heap.Touches] at htouch ⊢
    rw [← (hheader a ha).1, ← (hheader a ha).2]
    exact htouch
  · refine Eq.trans ?_ hw.total
    exact congrArg (· + _) (Heap.total_congr hunits)

/-- A call of `slob_alloc` for more than one unit. -/
theorem WellFormed.alloc (hw : WellFormed arena s t) {size : ℕ} (hsize : size + SLOB_UNIT < PAGE_SIZE)
    (hn : 1 < slobUnits size) {pages : List ℕ} (hfresh : ∀ page ∈ pages, Fresh arena s.heap.pages page) :
    ∃ N r, (∀ turns, N ≤ turns → slobAlloc turns pages size s.heap = .ok r) ∧
      (r = (none, s.heap) ∧ pages = [] ∨
        ∃ m h t', r = (some m, h) ∧ h.units m = slobUnits size ∧
          Changed arena s pages ⟨h, ⟨m, h.units m⟩ :: s.live⟩ t') := by
  obtain ⟨N, r, hrun, hr⟩ := slobAlloc_ok hw.coalesced hw.within hsize
    fun page hpage => hfresh page (List.mem_of_mem_head? hpage)
  refine ⟨N, r, hrun, hr.imp_right ?_⟩
  rintro ⟨h₁, t₁, p, hg, hp, hroom, rfl⟩
  have hgrown := hg.changed hw
  obtain ⟨t', hgrant⟩ := hgrown.wellFormed.coalesced.take hp rfl hn hroom
  exact ⟨_, _, t', rfl, hgrant.units_self, hgrown.trans
    (Granted.changed hgrant hgrown.wellFormed (Nat.zero_lt_of_lt hn) []) (List.Subset.refl _)⟩

/-- What a call answers: a block that is at least as large as asked for, and new. -/
def Op.Answers (s s' : State) (ret : Option ℕ) : Op → Prop
  | alloc size _ => ∀ m, ret = some m → size ≤ SLOB_UNIT * s'.heap.units m ∧
      s'.live = ⟨m, s'.heap.units m⟩ :: s.live
  | free _ _ => ret = none
  | write _ _ => ret = none

/-- **Step lemma.** -/
theorem WellFormed.step (hw : WellFormed arena s t) {op : Op} (hop : op.Enabled arena s) :
    ∃ ret s' t', op.Returns s ret s' ∧ op.Answers s s' ret ∧ WellFormed arena s' t' := by
  cases op with
  | alloc size pages =>
    obtain ⟨hlow, hhigh, hfresh⟩ := hop
    have hsize : size + SLOB_UNIT < PAGE_SIZE := by
      simp only [SLOB_UNIT, PAGE_SIZE] at hhigh ⊢
      omega
    have hn : 1 < slobUnits size := by
      simp only [slobUnits, SLOB_UNIT]
      omega
    obtain ⟨N, r, hrun, hr⟩ := hw.alloc hsize hn hfresh
    rcases hr with ⟨rfl, -⟩ | ⟨m, h, t', rfl, hunits, hchanged⟩
    · refine ⟨none, s, t, ⟨N, fun turns hturns => ?_⟩, (fun p hp => by cases hp), hw⟩
      simp only [Op.run, hrun turns hturns, bind_ok]
      rfl
    · refine ⟨some m, _, t', ⟨N, fun turns hturns => ?_⟩, ?_, hchanged.wellFormed⟩
      · simp only [Op.run, hrun turns hturns, bind_ok]
        rfl
      · rintro _ ⟨rfl⟩
        refine ⟨?_, rfl⟩
        show size ≤ SLOB_UNIT * h.units m
        rw [hunits]
        simp only [slobUnits, SLOB_UNIT]
        omega
  | free b size =>
    obtain ⟨h, t', hrun, hchanged⟩ := hw.free hop.1 hop.2
    refine ⟨none, _, t', ⟨t.length + 1, fun turns hturns => ?_⟩, rfl, hchanged.wellFormed⟩
    simp only [Op.run, hrun turns hturns, bind_ok]
    rfl
  | write units next =>
    exact ⟨none, _, t, ⟨0, fun _ _ => rfl⟩, rfl, hw.write units next fun a ha =>
      hop a (hw.freeLive a (hw.covers_header ha))⟩

theorem WellFormed.next (hw : ∃ t, WellFormed arena s t) (hstep : Next arena s s') :
    ∃ t, WellFormed arena s' t := by
  obtain ⟨t, hw⟩ := hw
  obtain ⟨op, ret, hop, hreturns⟩ := hstep
  obtain ⟨ret', s₁, t', hreturns', -, hw'⟩ := hw.step hop
  obtain ⟨-, rfl⟩ := hreturns.unique hreturns'
  exact ⟨t', hw'⟩

/-- The state of the heap, as its users see it. -/
structure HeapOk (arena : ℕ) (s : State) (free : List ℕ) : Prop where
  /-- the circle starts at `slobfree` and has the arena's block -/
  circle : ∃ t, free = s.heap.slobfree :: t ∧ IsCircle s.heap.next s.heap.slobfree t
  arena : arena ∈ free
  /-- the addresses ascend, but for one wrap -/
  ascending : ∃ high low, free = high ++ low ∧ (low ++ high).Pairwise (· < ·)
  /-- free blocks do not overlap and do not touch -/
  apart : ∀ a ∈ free, ∀ b ∈ free, a < b → a + s.heap.units a < b
  freeLive : ∀ a ∈ free, ∀ b ∈ s.live, ∀ x, s.heap.has a x → ¬ b.has x
  live : s.live.Pairwise fun b c => ∀ x, b.has x → ¬ c.has x
  total : (free.map s.heap.units).sum + (s.live.map Block.units).sum =
    1 + PAGE_UNITS * s.heap.pages.length

theorem WellFormed.heapOk (hw : WellFormed arena s t) : HeapOk arena s (s.heap.slobfree :: t) := by
  have hf := hw.coalesced.freeList
  refine ⟨⟨t, rfl, hf.circle⟩, hw.coalesced.arena_mem, hf.circle.sorted hf.ascending,
    fun a ha b hb hlt => ?_, fun a ha b hb x hx => hw.freeLive x ⟨a, ha, hx⟩ b hb, hw.livePairwise,
    hw.total⟩
  -- the next block is not behind `b`
  refine lt_of_le_of_ne (hf.apart a ha b hb hlt) fun heq => ?_
  have hnext := hf.circle.next_mem ha
  rcases hf.ascending a ha with ⟨hlt', hall⟩ | ⟨-, hall⟩
  · have hle := hf.apart a ha _ hnext hlt'
    have hbn := (hall b hb).resolve_left (not_le.2 hlt)
    exact hw.coalesced.notTouches a ha (le_antisymm hle (hbn.trans_eq heq.symm))
  · exact absurd hlt (not_lt.2 (hall b hb).2)

/-- **The heap.**  In every run the heap is as it should be, and every call on it comes back. -/
theorem slob_heap {units next : ℕ → ℕ} (hrun : ReflTransGen (Next arena) (boot arena units next) s) :
    (∃ free, HeapOk arena s free) ∧
      ∀ op : Op, op.Enabled arena s → ∃ ret s', op.Returns s ret s' ∧ op.Answers s s' ret := by
  obtain ⟨t, hw⟩ := Transition.invariant (P := fun s => ∃ t, WellFormed arena s t)
    (fun _ _ => WellFormed.next) hrun ⟨[], wellFormed_boot units next⟩
  refine ⟨⟨_, hw.heapOk⟩, fun op hop => ?_⟩
  obtain ⟨ret, s', -, hreturns, hanswers, -⟩ := hw.step hop
  exact ⟨ret, s', hreturns, hanswers⟩

/-- Two blocks of a first page, the first of which is freed, and what is left of the page. -/
theorem slob_heap_two : ∃ s, ReflTransGen (Next 100) (boot 100 (fun _ => 0) (fun _ => 0)) s ∧
    s.live = [⟨1299, 3⟩] ∧ s.heap.units 1280 = 19 ∧ s.heap.units 1302 = 234 ∧
      ∃ free, HeapOk 100 s free := by
  have hfresh : ∀ page ∈ [5], Fresh 100 [] page := by
    intro page hpage
    rw [List.mem_singleton.1 hpage]
    exact ⟨by decide, List.not_mem_nil, .inr (by decide)⟩
  have hrun : ReflTransGen (Next 100) (boot 100 (fun _ => 0) (fun _ => 0)) _ :=
    .tail (.tail (.single ⟨.alloc 300 [5], some 1280, ⟨by decide, by decide, hfresh⟩, 10, fun turns h => by
        obtain ⟨k, rfl⟩ := Nat.exists_eq_add_of_le' h
        rfl⟩)
      ⟨.alloc 40 [], some 1299, ⟨by decide, by decide, nofun⟩, 10, fun turns h => by
        obtain ⟨k, rfl⟩ := Nat.exists_eq_add_of_le' h
        rfl⟩)
      ⟨.free ⟨1280, 19⟩ 0, none, ⟨by decide, .inl ⟨rfl, rfl⟩⟩, 10, fun turns h => by
        obtain ⟨k, rfl⟩ := Nat.exists_eq_add_of_le' h
        rfl⟩
  exact ⟨_, hrun, rfl, rfl, rfl, (slob_heap hrun).1⟩

end Ucore.Slob
