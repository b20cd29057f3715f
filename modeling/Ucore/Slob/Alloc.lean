import Ucore.Slob.Blocks

/-!
# Taking a block from the list

`slob_alloc` walks once around the list.  When a block has room, its front becomes the new block and
what is left of it takes its place in the list (`Coalesced.take`).  When none has, one page of the
page allocator is freed into the list, and the second round finds room in it (`slobAlloc_ok`).
-/

namespace Ucore.Slob

open Function CircularList Fallible

variable {h h' : Heap} {a b cur prev n s x arena : ℕ} {l m t u : List ℕ}

/-- No unit is in two blocks. -/
theorem FreeList.eq_of_has (hf : FreeList h s t) (ha : a ∈ s :: t) (hb : b ∈ s :: t)
    (hax : h.has a x) (hbx : h.has b x) : a = b := by
  obtain ⟨ha1, ha2⟩ := hax
  obtain ⟨hb1, hb2⟩ := hbx
  rcases lt_trichotomy a b with hlt | heq | hlt
  · have hap := hf.apart a ha b hb hlt
    omega
  · exact heq
  · have hap := hf.apart b hb a ha hlt
    omega

/-- Unlinking the block behind `a`. -/
theorem FreeList.unlink (hf : FreeList h a (n :: t)) :
    FreeList (h.setNext a (h.next n)) a t ∧ ¬ (h.setNext a (h.next n)).Touches a ∧
      ∀ c ∈ t, (h.setNext a (h.next n)).Touches c → h.Touches c := by
  have hnodup := hf.circle.nodup
  have hperm : (a :: n :: t).Perm (n :: a :: t) := List.Perm.swap n a t
  have hna := (List.nodup_cons.1 (hperm.nodup_iff.1 hnodup)).1
  have hat : a ∉ t := fun hmem => (List.nodup_cons.1 hnodup).1 (List.mem_cons_of_mem n hmem)
  have hsub : ∀ c ∈ a :: t, c ∈ a :: n :: t := fun c hc => hperm.mem_iff.2 (List.mem_cons_of_mem n hc)
  have hn : h.next a = n := hf.circle.leads.1
  have hnext : (h.setNext a (h.next n)).next a = h.next n := update_self _ _ _
  have hold : ∀ c ∈ t, (h.setNext a (h.next n)).next c = h.next c := fun c hc =>
    update_of_ne (fun heq : c = a => hat (heq ▸ hc)) _ _
  have hclosed : h.next n ∈ a :: t := by
    have hleads := hf.circle.leads.2
    cases t with
    | nil => exact List.mem_cons.2 (.inl hleads)
    | cons c t => exact List.mem_cons_of_mem a (List.mem_cons.2 (.inl hleads.1))
  refine ⟨⟨hf.circle.unlink hnext hold, hf.ascending.unlink hn hna hclosed hnext hold,
    fun c hc => hf.pos c (hsub c hc), fun c hc d hd => hf.apart c (hsub c hc) d (hsub d hd)⟩, ?_, ?_⟩
  · intro htouch
    rw [Heap.Touches, hnext] at htouch
    change a + h.units a = h.next n at htouch
    have hpos := hf.pos a List.mem_cons_self
    have hmem := hsub _ hclosed
    rcases hf.ascending a List.mem_cons_self with ⟨hlt, hall⟩ | ⟨hle, hall⟩
    · -- the unlinked block lies between the end of `a` and the block behind it
      rw [hn] at hlt hall
      have hap := hf.apart a List.mem_cons_self n (by simp) hlt
      rcases hall _ hmem with hle | hle
      · omega
      · exact hna ((le_antisymm hle (htouch ▸ hap)) ▸ hclosed)
    · have hmax := (hall _ hmem).2
      omega
  · intro c hc htouch
    rw [Heap.Touches, hold c hc] at htouch
    exact htouch

/-- Cutting the block `a` after its first `n` units. -/
def split (a n : ℕ) (h : Heap) : Heap :=
  link a (a + n) ((h.setUnits (a + n) (h.units a - n)).setUnits a n)

theorem FreeList.split (hf : FreeList h a t) (hn : 0 < n) (hlt : n < h.units a) :
    FreeList (split a n h) a ((a + n) :: t) := by
  have hnot : a + n ∉ a :: t := by
    intro hmem
    have hap := hf.apart a List.mem_cons_self _ hmem (Nat.lt_add_of_pos_right hn)
    omega
  have hra : a + n ≠ a := by omega
  generalize hg : (h.setUnits (a + n) (h.units a - n)).setUnits a n = g
  have hga : g.units a = n := by
    rw [← hg]
    exact update_self _ _ _
  have hgr : g.units (a + n) = h.units a - n := by
    rw [← hg]
    exact (update_of_ne hra _ _).trans (update_self _ _ _)
  have hgc : ∀ c ∈ t, g.units c = h.units c := by
    intro c hc
    have hca : c ≠ a := fun heq => (List.nodup_cons.1 hf.circle.nodup).1 (heq ▸ hc)
    have hcr : c ≠ a + n := fun heq => hnot (heq ▸ List.mem_cons_of_mem a hc)
    rw [← hg]
    exact (update_of_ne hca _ _).trans (update_of_ne hcr _ _)
  have hgn : g.next = h.next := by
    rw [← hg]
    rfl
  have hle : ∀ c ∈ a :: t, g.units c ≤ h.units c := by
    intro c hc
    rcases List.mem_cons.1 hc with rfl | hc
    · exact hga.trans_le hlt.le
    · exact (hgc c hc).le
  have hshort : FreeList g a t := by
    refine ⟨hgn ▸ hf.circle, hgn ▸ hf.ascending, fun c hc => ?_, fun c hc d hd hcd => ?_⟩
    · rcases List.mem_cons.1 hc with rfl | hc
      · exact hga ▸ hn
      · rw [hgc c hc]
        exact hf.pos c (List.mem_cons_of_mem a hc)
    · exact (Nat.add_le_add_left (hle c hc) c).trans (hf.apart c hc d hd hcd)
  rw [Slob.split, hg]
  refine hshort.link hnot (by omega) (fun x hx => ?_) ?_
  · rintro ⟨c, hc, hcx⟩
    obtain ⟨hx1, hx2⟩ := hx
    rw [hgr] at hx2
    -- the unit is in the old block, so the other block is the front of it
    have hold : h.has c x := ⟨hcx.1, hcx.2.trans_le (Nat.add_le_add_left (hle c hc) c)⟩
    have hax : h.has a x := ⟨by omega, by omega⟩
    have heq := hf.eq_of_has hc List.mem_cons_self hold hax
    have hcx2 := hcx.2
    rw [heq, hga] at hcx2
    omega
  · rw [Between, hgn]
    have hmem := hf.circle.next_mem List.mem_cons_self
    rcases lt_or_ge a (h.next a) with hnext | hnext
    · have hap := hf.apart a List.mem_cons_self _ hmem hnext
      exact .inl ⟨by omega, by omega⟩
    · exact .inr ⟨hnext, .inl (by omega)⟩

/-! ### Taking -/

/-- The header of the block has its size. -/
theorem take_units_self : (take prev cur n h).units cur = n := by
  rw [take]
  split
  case isTrue heq => exact heq
  case isFalse => exact update_self _ _ _

/-- What taking the `n` units at `m` does to the free blocks. -/
structure Granted (arena : ℕ) (h h' : Heap) (t t' : List ℕ) (m n : ℕ) : Prop where
  coalesced : Coalesced arena h' t'
  units_self : h'.units m = n
  covers : ∀ x, h.covers (h.slobfree :: t) x ↔ h'.covers (h'.slobfree :: t') x ∨ m ≤ x ∧ x < m + n
  disjoint : ∀ x, m ≤ x → x < m + n → ¬ h'.covers (h'.slobfree :: t') x
  total : h.total (h.slobfree :: t) = h'.total (h'.slobfree :: t') + n
  units : ∀ x, ¬ h.covers (h.slobfree :: t) x → h'.units x = h.units x
  pages : h'.pages = h.pages

theorem take_exact (heq : h.units cur = n) :
    take prev cur n h = (h.setNext prev (h.next cur)).setSlobfree prev := by
  rw [take, if_pos heq]

theorem take_front (hne : cur ≠ prev) (heq : h.units cur ≠ n) :
    take prev cur n h = ⟨update (update h.units (cur + n) (h.units cur - n)) cur n,
      update (update h.next prev (cur + n)) (cur + n) (h.next cur), prev, h.pages⟩ := by
  rw [take, if_neg heq]
  simp only [Heap.setNext, Heap.setUnits, Heap.setSlobfree, update_self, update_of_ne hne]

theorem Coalesced.take (hc : Coalesced arena h t) (hprev : prev ∈ h.slobfree :: t)
    (hcur : h.next prev = cur) (hn : 1 < n) (hroom : n ≤ h.units cur) :
    ∃ t', Granted arena h (take prev cur n h) t t' cur n := by
  obtain ⟨v, hv, hvperm⟩ := hc.freeList.enter hprev
  have hcurmem : cur ∈ h.slobfree :: t := hcur ▸ hc.freeList.circle.next_mem hprev
  -- the arena is too small, so the list has another block
  have hca : cur ≠ arena := by
    rintro rfl
    rw [hc.arena_units] at hroom
    omega
  have hne : cur ≠ prev := by
    intro heq
    cases v with
    | nil =>
      have harena := hvperm.mem_iff.2 hc.arena_mem
      exact hca (heq.trans (List.mem_singleton.1 harena).symm)
    | cons c v =>
      have hcp : c = prev := hv.circle.leads.1.symm.trans (hcur.trans heq)
      exact (List.nodup_cons.1 hv.circle.nodup).1 (hcp ▸ List.mem_cons_self)
  obtain ⟨w, rfl⟩ := hv.circle.eq_cons (hcur ▸ hne)
  rw [hcur] at hv hvperm
  have hwv : ∀ c ∈ prev :: w, c ∈ prev :: cur :: w ∧ c ≠ cur := by
    intro c hcw
    have hperm : (prev :: cur :: w).Perm (cur :: prev :: w) := List.Perm.swap cur prev w
    refine ⟨hperm.mem_iff.2 (List.mem_cons_of_mem cur hcw), ?_⟩
    rintro rfl
    exact (List.nodup_cons.1 (hperm.nodup_iff.1 hv.circle.nodup)).1 hcw
  have harena : arena ∈ prev :: w := by
    have hmem := hvperm.mem_iff.2 hc.arena_mem
    rw [List.mem_cons, List.mem_cons] at hmem
    rw [List.mem_cons]
    tauto
  have hcovers : ∀ x, h.covers (h.slobfree :: t) x ↔ h.covers (prev :: w) x ∨ h.has cur x := by
    intro x
    rw [← Heap.covers_perm hvperm, Heap.covers_cons, Heap.covers_cons, Heap.covers_cons]
    tauto
  have htotal : h.total (h.slobfree :: t) = h.total (prev :: w) + h.units cur := by
    rw [← Heap.total_perm hvperm, Heap.total_cons, Heap.total_cons, Heap.total_cons]
    omega
  have hother : ∀ x, h.has cur x → ¬ h.covers (prev :: w) x := by
    rintro x hx ⟨c, hcw, hcx⟩
    exact (hwv c hcw).2 (hv.eq_of_has (hwv c hcw).1 (by simp) hcx hx)
  by_cases hexact : h.units cur = n
  · rw [take_exact hexact]
    obtain ⟨hfree, hprevt, hrest⟩ := hv.unlink
    refine ⟨w, ⟨hfree.congr (fun _ _ => rfl) fun _ _ => rfl, fun c hcw htouch => ?_, harena,
      hc.arena_units⟩, hexact, ?_, ?_, ?_, fun _ _ => rfl, rfl⟩
    · rcases List.mem_cons.1 hcw with rfl | hcw
      · exact hprevt htouch
      · exact hc.notTouches c (hvperm.mem_iff.1 (hwv c (List.mem_cons_of_mem prev hcw)).1)
          (hrest c hcw htouch)
    · intro x
      rw [hcovers x, Heap.has, hexact]
      rfl
    · intro x hlow hhigh
      exact hother x ⟨hlow, hexact ▸ hhigh⟩
    · rw [htotal, hexact]
      rfl
  · have hlt : n < h.units cur := lt_of_le_of_ne hroom (Ne.symm hexact)
    rw [take_front hne hexact]
    generalize hT : Heap.mk (update (update h.units (cur + n) (h.units cur - n)) cur n)
      (update (update h.next prev (cur + n)) (cur + n) (h.next cur)) prev h.pages = T
    -- cut the block, and then unlink its front
    obtain ⟨u, hu, huperm⟩ := hv.enter (List.mem_cons_of_mem prev List.mem_cons_self)
    have hsplit := hu.split (by omega) hlt
    have hprevmem : prev ∈ cur :: (cur + n) :: u := by
      have hmem := huperm.mem_iff.2 (List.mem_cons_self (a := prev))
      exact List.mem_cons.2 ((List.mem_cons.1 hmem).imp_right (List.mem_cons_of_mem _))
    obtain ⟨z, hz, hzperm⟩ := hsplit.enter hprevmem
    have hrnot : cur + n ∉ prev :: cur :: w := by
      intro hmem
      have hmem' := huperm.mem_iff.2 hmem
      have hnodup := hsplit.circle.nodup
      have hperm : (cur :: (cur + n) :: u).Perm ((cur + n) :: cur :: u) := List.Perm.swap _ _ u
      exact (List.nodup_cons.1 (hperm.nodup_iff.1 hnodup)).1 hmem'
    have hgnext : ∀ c ∈ prev :: w, (split cur n h).next c = h.next c := by
      intro c hcw
      refine link_next_of_ne (fun heq => hrnot (heq ▸ (hwv c hcw).1)) (hwv c hcw).2
    have hgr : (split cur n h).next (cur + n) = h.next cur := link_next_new (by omega)
    have hgprev : (split cur n h).next prev = cur :=
      (hgnext prev List.mem_cons_self).trans hcur
    obtain ⟨z', rfl⟩ := hz.circle.eq_cons (hgprev.trans_ne hne)
    rw [hgprev] at hz hzperm
    have hz'perm : (prev :: z').Perm ((cur + n) :: prev :: w) := by
      refine List.Perm.cons_inv (a := cur) ?_
      calc (cur :: prev :: z').Perm (prev :: cur :: z') := List.Perm.swap prev cur z'
        _ |>.Perm (cur :: (cur + n) :: u) := hzperm
        _ |>.Perm ((cur + n) :: cur :: u) := List.Perm.swap _ _ u
        _ |>.Perm ((cur + n) :: prev :: cur :: w) := huperm.cons _
        _ |>.Perm ((cur + n) :: cur :: prev :: w) := (List.Perm.swap cur prev w).cons _
        _ |>.Perm (cur :: (cur + n) :: prev :: w) := List.Perm.swap _ _ _
    obtain ⟨hfree, hprevt, hrest⟩ := hz.unlink
    have hrprev : cur + n ≠ prev := fun heq => hrnot (heq ▸ List.mem_cons_self)
    have hmem : ∀ c ∈ prev :: z', c = cur + n ∨ c ∈ prev :: w := fun c hcz =>
      List.mem_cons.1 (hz'perm.mem_iff.1 hcz)
    have hTunits : T.units = (split cur n h).units := by
      rw [← hT]
      rfl
    have hTw : ∀ c ∈ prev :: w, T.units c = h.units c := by
      intro c hcw
      rw [← hT]
      exact (update_of_ne (hwv c hcw).2 _ _).trans
        (update_of_ne (fun heq : c = cur + n => hrnot (heq ▸ (hwv c hcw).1)) _ _)
    have hTr : T.units (cur + n) = h.units cur - n := by
      rw [← hT]
      exact (update_of_ne (by omega) _ _).trans (update_self _ _ _)
    have hTnext : ∀ c ∈ prev :: z',
        T.next c = ((split cur n h).setNext prev ((split cur n h).next cur)).next c := by
      intro c hcz
      have hgcur : (split cur n h).next cur = cur + n := link_next_self
      rw [← hT, hgcur]
      rcases hmem c hcz with rfl | hcw
      · refine (update_self _ _ _).trans (hgr.symm.trans ?_)
        exact (update_of_ne hrprev _ _).symm
      · refine (update_of_ne (fun heq : c = cur + n => hrnot (heq ▸ (hwv c hcw).1)) _ _).trans ?_
        rcases eq_or_ne c prev with rfl | hcp
        · have hnew : ((split cur n h).setNext c (cur + n)).next c = cur + n := update_self _ _ _
          rw [hnew]
          exact update_self _ _ _
        · refine (update_of_ne hcp _ _).trans ((hgnext c hcw).symm.trans ?_)
          exact (update_of_ne hcp _ _).symm
    have htouchT : ∀ c ∈ prev :: z', T.Touches c →
        ((split cur n h).setNext prev ((split cur n h).next cur)).Touches c := by
      intro c hcz htouch
      rw [Heap.Touches, hTnext c hcz, hTunits] at htouch
      exact htouch
    have hslob : T.slobfree = prev := by rw [← hT]
    have hTcovers : ∀ x, T.covers (prev :: z') x ↔ T.has (cur + n) x ∨ h.covers (prev :: w) x := by
      intro x
      rw [Heap.covers_perm hz'perm, Heap.covers_cons, Heap.covers_congr hTw]
    refine ⟨z', ⟨?_, ?_, ?_, ?_⟩, ?_, ?_, ?_, ?_, ?_, ?_⟩
    · rw [hslob]
      exact hfree.congr hTnext fun c _ => congrFun hTunits c
    · rw [hslob]
      intro c hcz htouch
      have htouch' := htouchT c hcz htouch
      rcases List.mem_cons.1 hcz with rfl | hcz'
      · exact hprevt htouch'
      · have hg := hrest c hcz' htouch'
        rcases hmem c hcz with rfl | hcw
        · rw [Heap.Touches, hgr, ← hTunits, hTr] at hg
          exact hc.notTouches cur hcurmem (show cur + h.units cur = h.next cur by omega)
        · rw [Heap.Touches, hgnext c hcw, ← hTunits, hTw c hcw] at hg
          exact hc.notTouches c (hvperm.mem_iff.1 (hwv c hcw).1) hg
    · rw [hslob]
      exact hz'perm.mem_iff.2 (List.mem_cons_of_mem _ harena)
    · rw [hTw arena harena]
      exact hc.arena_units
    · rw [← hT]
      exact update_self _ _ _
    · intro x
      rw [hcovers x, hslob, hTcovers x, Heap.has, Heap.has, hTr]
      have hle : cur + n + (h.units cur - n) = cur + h.units cur := by omega
      rw [hle]
      constructor
      · rintro (hw | hx)
        · exact .inl (.inr hw)
        · rcases lt_or_ge x (cur + n) with hxn | hxn
          · exact .inr ⟨hx.1, hxn⟩
          · exact .inl (.inl ⟨hxn, hx.2⟩)
      · rintro ((hx | hw) | hx)
        · exact .inr ⟨by omega, hx.2⟩
        · exact .inl hw
        · exact .inr ⟨hx.1, by omega⟩
    · intro x hlow hhigh
      rw [hslob, hTcovers x]
      rintro (hx | hx)
      · exact absurd hx.1 (not_le.2 hhigh)
      · exact hother x ⟨hlow, by omega⟩ hx
    · have hnew : T.total (prev :: z') = h.units cur - n + h.total (prev :: w) := by
        rw [Heap.total_perm hz'perm, Heap.total_cons (a := cur + n), Heap.total_congr hTw, hTr]
      rw [htotal, hslob, hnew]
      omega
    · intro x hx
      have hxcur : x ≠ cur := by
        rintro rfl
        exact hx ⟨x, hcurmem, le_rfl, by omega⟩
      have hxr : x ≠ cur + n := by
        rintro rfl
        exact hx ⟨cur, hcurmem, by omega, by omega⟩
      rw [← hT]
      exact (update_of_ne hxcur _ _).trans (update_of_ne hxr _ _)
    · rw [← hT]

/-! ### The loop -/

/-- A turn that does not have to ask for a page. -/
theorem allocLoop_succ {size k : ℕ} {pages : List ℕ} {turns : ℕ} (hturn : n ≤ h.units cur ∨ cur ≠ h.slobfree) :
    allocLoop turns size n (k + 1) pages prev cur h =
      if n ≤ h.units cur then .ok (some cur, take prev cur n h)
      else allocLoop turns size n k pages cur (h.next cur) h := by
  rcases hturn with hroom | hne
  · rw [if_pos hroom]
    exact if_pos hroom
  · by_cases hroom : n ≤ h.units cur
    · rw [if_pos hroom]
      exact if_pos hroom
    · rw [if_neg hroom]
      exact (if_neg hroom).trans (if_neg hne)

/-- The walk of `slob_alloc` from `prev` on, over the blocks `l` and back to `slobfree`: it stops at a
block with room, or it comes to `slobfree` and there is none. -/
theorem allocLoop_scan (size n : ℕ) (pages : List ℕ) (hl : Leads h.next prev l h.slobfree)
    (hnot : h.slobfree ∉ l) :
    (∃ p ∈ prev :: l, n ≤ h.units (h.next p) ∧ ∀ turns k, allocLoop turns size n (l.length + (k + 1)) pages
      prev (h.next prev) h = .ok (some (h.next p), take p (h.next p) n h)) ∨
    (∃ p, (∀ c ∈ l ++ [h.slobfree], h.units c < n) ∧ ∀ turns k, allocLoop turns size n (l.length + (k + 1))
      pages prev (h.next prev) h = allocLoop turns size n (k + 1) pages p h.slobfree h) := by
  induction l generalizing prev with
  | nil =>
    have hnext : h.next prev = h.slobfree := hl
    rw [hnext, List.length_nil]
    by_cases hroom : n ≤ h.units h.slobfree
    · refine .inl ⟨prev, List.mem_cons_self, hnext ▸ hroom, fun _ k => ?_⟩
      rw [hnext, Nat.zero_add, allocLoop_succ (.inl hroom), if_pos hroom]
    · refine .inr ⟨prev, fun c hc => ?_, fun _ k => ?_⟩
      · rw [List.nil_append, List.mem_singleton] at hc
        exact hc ▸ not_le.1 hroom
      · rw [Nat.zero_add]
  | cons c l ih =>
    obtain ⟨hnext, hl⟩ := hl
    have hlen : ∀ k, (c :: l).length + (k + 1) = (l.length + (k + 1)) + 1 := by
      intro k
      rw [List.length_cons]
      omega
    have hc : c ≠ h.slobfree := fun heq => hnot (heq ▸ List.mem_cons_self)
    by_cases hroom : n ≤ h.units c
    · refine .inl ⟨prev, List.mem_cons_self, hnext ▸ hroom, fun _ k => ?_⟩
      rw [hlen k, hnext, allocLoop_succ (.inr hc), if_pos hroom]
    · have hstep : ∀ turns k, allocLoop turns size n ((c :: l).length + (k + 1)) pages prev (h.next prev) h =
          allocLoop turns size n (l.length + (k + 1)) pages c (h.next c) h := by
        intro turns k
        rw [hlen k, hnext, allocLoop_succ (.inr hc), if_neg hroom]
      rcases ih hl (fun hmem => hnot (List.mem_cons_of_mem c hmem)) with
        ⟨p, hp, hfit, heq⟩ | ⟨p, hall, heq⟩
      · exact .inl ⟨p, List.mem_cons_of_mem prev hp, hfit, fun turns k => (hstep turns k).trans (heq turns k)⟩
      · refine .inr ⟨p, fun d hd => ?_, fun turns k => (hstep turns k).trans (heq turns k)⟩
        rcases List.mem_cons.1 hd with rfl | hd
        · exact not_le.1 hroom
        · exact hall d hd

/-- A round over a list with room finds it. -/
theorem allocLoop_found (size : ℕ) (pages : List ℕ) (hf : FreeList h h.slobfree t)
    (hroom : ∃ c ∈ h.slobfree :: t, n ≤ h.units c) :
    ∃ p ∈ h.slobfree :: t, n ≤ h.units (h.next p) ∧ ∀ turns k, allocLoop turns size n (t.length + (k + 1))
      pages h.slobfree (h.next h.slobfree) h = .ok (some (h.next p), take p (h.next p) n h) := by
  refine (allocLoop_scan size n pages hf.circle.leads (List.nodup_cons.1 hf.circle.nodup).1).resolve_right ?_
  rintro ⟨p, hall, -⟩
  obtain ⟨c, hc, hfit⟩ := hroom
  refine absurd hfit (not_le.2 (hall c ?_))
  rw [List.mem_append, List.mem_singleton]
  exact (List.mem_cons.1 hc).symm

/-- A round over a list without room ends at `slobfree`. -/
theorem allocLoop_full (size : ℕ) (pages : List ℕ) (hf : FreeList h h.slobfree t)
    (hfull : ∀ c ∈ h.slobfree :: t, h.units c < n) :
    ∃ p, ∀ turns k, allocLoop turns size n (t.length + (k + 1)) pages h.slobfree (h.next h.slobfree) h =
      allocLoop turns size n (k + 1) pages p h.slobfree h := by
  rcases allocLoop_scan size n pages hf.circle.leads
    (List.nodup_cons.1 hf.circle.nodup).1 with ⟨p, hp, hfit, -⟩ | ⟨p, -, heq⟩
  · exact absurd hfit (not_le.2 (hfull _ (hf.circle.next_mem hp)))
  · exact ⟨p, heq⟩

/-- A page that may become part of the heap: a new one, away from the arena. -/
structure Fresh (arena : ℕ) (pages : List ℕ) (page : ℕ) : Prop where
  ne_zero : page ≠ 0
  not_mem : page ∉ pages
  away : (page + 1) * PAGE_UNITS < arena ∨ arena + 1 < page * PAGE_UNITS

/-- The heap has only the arena's unit and the units of its pages. -/
def Within (arena : ℕ) (h : Heap) (t : List ℕ) : Prop :=
  ∀ x, h.covers (h.slobfree :: t) x → x = arena ∨ x / PAGE_UNITS ∈ h.pages

/-- Freeing a new page into the heap. -/
theorem Coalesced.grow (hc : Coalesced arena h t) (hw : Within arena h t) {page : ℕ}
    (hfresh : Fresh arena h.pages page) :
    ∃ h' t', (∀ turns, t.length < turns →
        slobFree turns (page * PAGE_UNITS) PAGE_SIZE { h with pages := page :: h.pages } = .ok h') ∧
      Freed arena { h with pages := page :: h.pages } h' t t' (page * PAGE_UNITS) PAGE_UNITS := by
  have hc' : Coalesced arena { h with pages := page :: h.pages } t :=
    ⟨hc.freeList.congr (fun _ _ => rfl) fun _ _ => rfl, hc.notTouches, hc.arena_mem, hc.arena_units⟩
  have hne := hfresh.ne_zero
  have haway := hfresh.away
  refine slobFree_ok hc' ?_ (by decide) (.inr ⟨by decide, rfl⟩) (fun x hlow hhigh hx => ?_) ?_ ?_
  · simp only [PAGE_UNITS]
    omega
  · simp only [PAGE_UNITS] at hlow hhigh haway
    rcases hw x hx with rfl | hpage
    · omega
    · have hdiv : x / PAGE_UNITS = page := by
        simp only [PAGE_UNITS]
        omega
      exact hfresh.not_mem (hdiv ▸ hpage)
  · simp only [PAGE_UNITS] at haway ⊢
    omega
  · simp only [PAGE_UNITS] at haway ⊢
    omega

/-- The free blocks as they are, or with one new page. -/
def Grown (arena : ℕ) (pages : List ℕ) (h h' : Heap) (t t' : List ℕ) : Prop :=
  h' = h ∧ t' = t ∨ ∃ page ∈ pages, Fresh arena h.pages page ∧
    Freed arena { h with pages := page :: h.pages } h' t t' (page * PAGE_UNITS) PAGE_UNITS

theorem Grown.coalesced {pages : List ℕ} (hg : Grown arena pages h h' t u)
    (hc : Coalesced arena h t) : Coalesced arena h' u := by
  rcases hg with ⟨rfl, rfl⟩ | ⟨page, -, -, hfreed⟩
  · exact hc
  · exact hfreed.coalesced

/-- A call that keeps to the size limit comes back.  It finds room in the free blocks or in a new
page, unless there is none in the free blocks and the page allocator has no page. -/
theorem slobAlloc_ok (hc : Coalesced arena h t) (hw : Within arena h t) {size : ℕ}
    (hsize : size + SLOB_UNIT < PAGE_SIZE) {pages : List ℕ}
    (hfresh : ∀ page ∈ pages.head?, Fresh arena h.pages page) :
    ∃ N r, (∀ turns, N ≤ turns → slobAlloc turns pages size h = .ok r) ∧
      (r = (none, h) ∧ pages = [] ∨
        ∃ h₁ t₁ p, Grown arena pages h h₁ t t₁ ∧ p ∈ h₁.slobfree :: t₁ ∧
          slobUnits size ≤ h₁.units (h₁.next p) ∧
          r = (some (h₁.next p), take p (h₁.next p) (slobUnits size) h₁)) := by
  have hstart : ∀ turns, slobAlloc turns pages size h =
      allocLoop turns size (slobUnits size) turns pages h.slobfree (h.next h.slobfree) h := by
    intro turns
    rw [slobAlloc, require_pos hsize]
    rfl
  by_cases hroom : ∃ c ∈ h.slobfree :: t, slobUnits size ≤ h.units c
  · obtain ⟨p, hp, hfit, heq⟩ := allocLoop_found size pages hc.freeList hroom
    refine ⟨t.length + 1, _, fun turns hturns => ?_,
      .inr ⟨h, t, p, .inl ⟨rfl, rfl⟩, hp, hfit, rfl⟩⟩
    obtain ⟨k, rfl⟩ := Nat.exists_eq_add_of_le hturns
    rw [hstart, show t.length + 1 + k = t.length + (k + 1) by omega]
    exact heq _ k
  · push Not at hroom
    have hpage : ¬ size = PAGE_SIZE := by
      simp only [SLOB_UNIT] at hsize
      omega
    obtain ⟨q, hfull⟩ := allocLoop_full size pages hc.freeList hroom
    have hnot : ¬ slobUnits size ≤ h.units h.slobfree := not_le.2 (hroom _ List.mem_cons_self)
    cases pages with
    | nil =>
      refine ⟨t.length + 1, (none, h), fun turns hturns => ?_, .inl ⟨rfl, rfl⟩⟩
      obtain ⟨k, rfl⟩ := Nat.exists_eq_add_of_le hturns
      rw [hstart, show t.length + 1 + k = t.length + (k + 1) by omega, hfull]
      simp only [allocLoop, if_neg hnot, if_neg hpage, if_true]
    | cons page pages =>
      obtain ⟨h₁, t₁, hfree, hfreed⟩ := hc.grow hw (hfresh page rfl)
      have hunits : slobUnits size ≤ PAGE_UNITS := by
        simp only [slobUnits, SLOB_UNIT, PAGE_SIZE, PAGE_UNITS] at hsize ⊢
        omega
      obtain ⟨c, hcmem, hcroom⟩ := hfreed.room
      obtain ⟨p, hp, hfit, heq⟩ := allocLoop_found size pages
        hfreed.coalesced.freeList ⟨c, hcmem, hunits.trans hcroom⟩
      refine ⟨t.length + t₁.length + 2, _, fun turns hturns => ?_,
        .inr ⟨h₁, t₁, p, .inr ⟨page, List.mem_cons_self, hfresh page rfl, hfreed⟩, hp, hfit, rfl⟩⟩
      obtain ⟨k, rfl⟩ := Nat.exists_eq_add_of_le hturns
      rw [hstart]
      generalize hturns : t.length + t₁.length + 2 + k = turns
      have hfree' := hfree turns (by omega)
      nth_rewrite 2 [← hturns]
      rw [show t.length + t₁.length + 2 + k = t.length + (t₁.length + (k + 1) + 1) by omega, hfull]
      have hfound := heq turns k
      generalize t₁.length + (k + 1) = j at hfound ⊢
      simp only [allocLoop, if_neg hnot, if_neg hpage, if_true, hfree', bind_ok]
      exact hfound

end Ucore.Slob
