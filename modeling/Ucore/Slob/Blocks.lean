import Mathlib.Algebra.BigOperators.Group.List.Basic
import Ucore.Slob.Model

/-!
# The free blocks

`FreeList h s t`: the links of the heap lead from the free block `s` through `t` back to it, in the
order of the addresses, and the blocks do not overlap.  Freeing a block is three steps of which each
keeps that: link the block where it belongs, merge it with its successor if they touch, and merge its
predecessor with it if they touch (`slobFree_eq`).  No block touches the next one after that, if none
did before.
-/

namespace Ucore.Slob

open Function CircularList Fallible

/-- The block `a` has the unit `x`. -/
def Heap.has (h : Heap) (a x : ℕ) : Prop := a ≤ x ∧ x < a + h.units a

/-- One of the blocks has the unit `x`. -/
def Heap.covers (h : Heap) (l : List ℕ) (x : ℕ) : Prop := ∃ a ∈ l, h.has a x

/-- The units of the blocks. -/
def Heap.total (h : Heap) (l : List ℕ) : ℕ := (l.map h.units).sum

/-- The block ends where the next one begins. -/
def Heap.Touches (h : Heap) (a : ℕ) : Prop := a + h.units a = h.next a

instance (h : Heap) (a : ℕ) : Decidable (h.Touches a) := inferInstanceAs (Decidable (_ = _))

/-- The free blocks are `s` and `t`. -/
structure FreeList (h : Heap) (s : ℕ) (t : List ℕ) : Prop where
  circle : IsCircle h.next s t
  ascending : Ascending h.next (s :: t)
  pos : ∀ a ∈ s :: t, 0 < h.units a
  apart : ∀ a ∈ s :: t, ∀ b ∈ s :: t, a < b → a + h.units a ≤ b

variable {h h' : Heap} {a b cur n s x arena : ℕ} {l m t u : List ℕ}

theorem Heap.covers_perm (hperm : l.Perm m) : h.covers l x ↔ h.covers m x := by
  constructor
  · rintro ⟨a, ha, hx⟩
    exact ⟨a, hperm.mem_iff.1 ha, hx⟩
  · rintro ⟨a, ha, hx⟩
    exact ⟨a, hperm.mem_iff.2 ha, hx⟩

theorem Heap.total_perm (hperm : l.Perm m) : h.total l = h.total m := (hperm.map _).sum_eq

theorem Heap.covers_cons : h.covers (a :: l) x ↔ h.has a x ∨ h.covers l x := by
  simp [Heap.covers]

theorem Heap.covers_congr (heq : ∀ a ∈ l, h'.units a = h.units a) : h'.covers l x ↔ h.covers l x := by
  constructor
  · rintro ⟨a, ha, hx⟩
    exact ⟨a, ha, by rwa [Heap.has, heq a ha] at hx⟩
  · rintro ⟨a, ha, hx⟩
    exact ⟨a, ha, by rwa [Heap.has, heq a ha]⟩

theorem Heap.total_cons : h.total (a :: l) = h.units a + h.total l := by
  simp [Heap.total]

theorem Heap.total_congr (heq : ∀ a ∈ l, h'.units a = h.units a) : h'.total l = h.total l := by
  rw [Heap.total, Heap.total, List.map_congr_left heq]

/-- The same list, entered at another block. -/
theorem FreeList.enter (hf : FreeList h s t) (ha : a ∈ s :: t) :
    ∃ u, FreeList h a u ∧ (a :: u).Perm (s :: t) := by
  obtain ⟨u, hu, hperm⟩ := hf.circle.enter ha
  refine ⟨u, ⟨hu, hf.ascending.perm hperm, fun c hc => hf.pos c (hperm.mem_iff.1 hc), ?_⟩, hperm⟩
  exact fun c hc d hd => hf.apart c (hperm.mem_iff.1 hc) d (hperm.mem_iff.1 hd)

theorem FreeList.congr (hf : FreeList h s t) (hnext : ∀ a ∈ s :: t, h'.next a = h.next a)
    (hunits : ∀ a ∈ s :: t, h'.units a = h.units a) : FreeList h' s t := by
  refine ⟨hf.circle.congr hnext, hf.ascending.congr hnext, fun a ha => ?_, fun a ha c hc hlt => ?_⟩
  · rw [hunits a ha]
    exact hf.pos a ha
  · rw [hunits a ha]
    exact hf.apart a ha c hc hlt

/-! ### Linking -/

/-- Link the block `b` behind `cur`. -/
def link (cur b : ℕ) (h : Heap) : Heap := (h.setNext b (h.next cur)).setNext cur b

theorem link_next_self : (link cur b h).next cur = b := update_self _ _ _

theorem link_next_new (hne : b ≠ cur) : (link cur b h).next b = h.next cur :=
  (update_of_ne hne _ _).trans (update_self _ _ _)

theorem link_next_of_ne (hb : a ≠ b) (hcur : a ≠ cur) : (link cur b h).next a = h.next a :=
  (update_of_ne hcur _ _).trans (update_of_ne hb _ _)

theorem FreeList.link (hf : FreeList h cur t) (hb : b ∉ cur :: t) (hpos : 0 < h.units b)
    (hdisj : ∀ x, h.has b x → ¬ h.covers (cur :: t) x) (hbetween : Between h.next b cur) :
    FreeList (link cur b h) cur (b :: t) := by
  have hne : b ≠ cur := fun heq => hb (heq ▸ List.mem_cons_self)
  have hold : ∀ c ∈ t, (Slob.link cur b h).next c = h.next c := fun c hc =>
    link_next_of_ne (fun heq => hb (heq ▸ List.mem_cons_of_mem cur hc))
      fun heq => (List.nodup_cons.1 hf.circle.nodup).1 (heq ▸ hc)
  have hmem : ∀ c ∈ cur :: b :: t, c = b ∨ c ∈ cur :: t := by
    intro c hc
    rw [List.mem_cons, List.mem_cons] at hc
    rw [List.mem_cons]
    tauto
  refine ⟨hf.circle.link hb link_next_self (link_next_new hne) hold, ?_, ?_, ?_⟩
  · exact hf.ascending.link (fun c hc => hf.circle.next_mem hc) (List.nodup_cons.1 hf.circle.nodup).1
      hbetween link_next_self (link_next_new hne) hold
  · intro c hc
    rcases hmem c hc with rfl | hc
    · exact hpos
    · exact hf.pos c hc
  · intro c hc d hd hlt
    show c + h.units c ≤ d
    rcases hmem c hc with rfl | hcold
    · rcases hmem d hd with rfl | hd
      · exact absurd hlt (lt_irrefl _)
      · -- otherwise the first unit of `d` is in the new block
        by_contra hcd
        exact hdisj d ⟨hlt.le, not_le.1 hcd⟩ ⟨d, hd, le_rfl, Nat.lt_add_of_pos_right (hf.pos d hd)⟩
    · rcases hmem d hd with rfl | hd
      · by_contra hcd
        exact hdisj d ⟨le_rfl, Nat.lt_add_of_pos_right hpos⟩ ⟨c, hcold, hlt.le, not_le.1 hcd⟩
      · exact hf.apart c hcold d hd hlt

/-! ### Merging -/

/-- Make one block of `a` and its successor if they touch. -/
def merge (a : ℕ) (h : Heap) : Heap :=
  if h.Touches a then
    (h.setUnits a (h.units a + h.units (h.next a))).setNext a (h.next (h.next a))
  else h

theorem merge_units_of_ne (hne : x ≠ a) : (merge a h).units x = h.units x := by
  rw [merge]
  split
  · exact update_of_ne hne _ _
  · rfl

theorem merge_next_of_ne (hne : x ≠ a) : (merge a h).next x = h.next x := by
  rw [merge]
  split
  · exact update_of_ne hne _ _
  · rfl

theorem merge_units_self (htouch : h.Touches a) :
    (merge a h).units a = h.units a + h.units (h.next a) := by
  rw [merge, if_pos htouch]
  exact update_self _ _ _

theorem le_merge_units : h.units a ≤ (merge a h).units a := by
  by_cases htouch : h.Touches a
  · rw [merge_units_self htouch]
    exact Nat.le_add_right _ _
  · rw [merge, if_neg htouch]

theorem merge_next_self (htouch : h.Touches a) : (merge a h).next a = h.next (h.next a) := by
  rw [merge, if_pos htouch]
  exact update_self _ _ _

/-- What merging `a` with its successor does to the list `a :: t`. -/
structure Merged (h h' : Heap) (a : ℕ) (t t' : List ℕ) : Prop where
  freeList : FreeList h' a t'
  sub : ∀ c ∈ t', c ∈ t
  kept : ∀ c ∈ t, c = h.next a ∧ h.Touches a ∨ c ∈ t'
  covers : ∀ x, h'.covers (a :: t') x ↔ h.covers (a :: t) x
  total : h'.total (a :: t') = h.total (a :: t)

theorem FreeList.merge (hf : FreeList h a t) : ∃ t', Merged h (merge a h) a t t' := by
  by_cases htouch : h.Touches a
  · have hlt : a < h.next a := by
      have hpos := hf.pos a List.mem_cons_self
      rw [Heap.Touches] at htouch
      omega
    obtain ⟨t', rfl⟩ := hf.circle.eq_cons hlt.ne'
    have hnext := merge_next_self htouch
    have hunits := merge_units_self htouch
    generalize hn : h.next a = n at *
    have hnodup := hf.circle.nodup
    have hna : n ∉ a :: t' := by
      have hperm : (a :: n :: t').Perm (n :: a :: t') := List.Perm.swap n a t'
      exact (List.nodup_cons.1 (hperm.nodup_iff.1 hnodup)).1
    have hat : a ∉ t' := fun hmem => (List.nodup_cons.1 hnodup).1 (List.mem_cons_of_mem n hmem)
    have hsub : ∀ c ∈ a :: t', c ∈ a :: n :: t' := fun c hc =>
      List.mem_cons.2 ((List.mem_cons.1 hc).imp_right (List.mem_cons_of_mem n))
    have hold : ∀ c ∈ t', (Slob.merge a h).next c = h.next c := fun c hc =>
      merge_next_of_ne fun heq => hat (heq ▸ hc)
    have holdu : ∀ c ∈ t', (Slob.merge a h).units c = h.units c := fun c hc =>
      merge_units_of_ne fun heq => hat (heq ▸ hc)
    have hclosed : h.next n ∈ a :: t' := by
      have hleads := hf.circle.leads.2
      cases t' with
      | nil => exact List.mem_cons.2 (.inl hleads)
      | cons c t' => exact List.mem_cons_of_mem a (List.mem_cons.2 (.inl hleads.1))
    rw [Heap.Touches, hn] at htouch
    refine ⟨t', ⟨hf.circle.unlink hnext hold, hf.ascending.unlink hn hna hclosed hnext hold, ?_, ?_⟩,
      fun c hc => List.mem_cons_of_mem n hc, ?_, ?_, ?_⟩
    · intro c hc
      rcases List.mem_cons.1 hc with rfl | hc
      · rw [hunits]
        exact Nat.add_pos_left (hf.pos c List.mem_cons_self) _
      · rw [holdu c hc]
        exact hf.pos c (hsub c (List.mem_cons_of_mem a hc))
    · intro c hc d hd hlt
      have hap := hf.apart c (hsub c hc) d (hsub d hd) hlt
      rcases List.mem_cons.1 hc with rfl | hc
      · rw [hunits]
        -- `d` is behind `n`, because `n` is the next block after this one
        have hnd : n ≠ d := fun heq => hna (heq ▸ hd)
        have hapn := hf.apart n (by simp) d (hsub d hd) (by omega)
        omega
      · rw [holdu c hc]
        exact hap
    · intro c hc
      rw [Heap.Touches, hn]
      exact (List.mem_cons.1 hc).imp_left fun heq => ⟨heq, htouch⟩
    · intro x
      rw [Heap.covers_cons, Heap.covers_cons, Heap.covers_cons, Heap.covers_congr holdu,
        ← or_assoc]
      refine or_congr_left ?_
      rw [Heap.has, Heap.has, Heap.has, hunits]
      omega
    · rw [Heap.total_cons, Heap.total_cons, Heap.total_cons, Heap.total_congr holdu, hunits]
      omega
  · rw [Slob.merge, if_neg htouch]
    exact ⟨t, hf, fun c hc => hc, fun c hc => .inr hc, fun x => Iff.rfl, rfl⟩

/-- Merging makes `a` touch what its successor touches. -/
theorem FreeList.touches_merge (hf : FreeList h a t) {t' : List ℕ} (hm : Merged h (Slob.merge a h) a t t')
    {P : ℕ → Prop} (hP : ∀ c ∈ t, h.Touches c → P c) (hnext : h.Touches a → ¬ P (h.next a)) :
    ∀ c ∈ a :: t', (Slob.merge a h).Touches c → P c := by
  intro c hc htouch
  rcases List.mem_cons.1 hc with rfl | hct
  · by_cases hold : h.Touches c
    · have hlt : c < h.next c := by
        have hpos := hf.pos c List.mem_cons_self
        rw [Heap.Touches] at hold
        omega
      obtain ⟨u, rfl⟩ := hf.circle.eq_cons hlt.ne'
      refine absurd (hP _ List.mem_cons_self ?_) (hnext hold)
      rw [Heap.Touches, merge_units_self hold, merge_next_self hold] at htouch
      rw [Heap.Touches] at hold ⊢
      omega
    · rw [Slob.merge, if_neg hold] at htouch
      exact absurd htouch hold
  · have hne : c ≠ a := fun heq => (List.nodup_cons.1 hm.freeList.circle.nodup).1 (heq ▸ hct)
    rw [Heap.Touches, merge_units_of_ne hne, merge_next_of_ne hne] at htouch
    exact hP c (hm.sub c hct) htouch

/-! ### `slob_free` -/

/-- The free blocks between two calls: no two touch, and the arena's one unit is among them. -/
structure Coalesced (arena : ℕ) (h : Heap) (t : List ℕ) : Prop where
  freeList : FreeList h h.slobfree t
  notTouches : ∀ a ∈ h.slobfree :: t, ¬ h.Touches a
  arena_mem : arena ∈ h.slobfree :: t
  arena_units : h.units arena = 1

/-- The two joins of `slob_free` link the block and merge it with its neighbours. -/
theorem join_eq (hne : b ≠ cur) (hnext : h.next cur ≠ b)
    (hnot : b + h.units b = h.next cur → h.next cur ≠ cur) :
    joinPrev cur b (joinNext cur b h) = merge cur (merge b (link cur b h)) := by
  have hright : merge b (link cur b h) = (joinNext cur b h).setNext cur b := by
    have htouch : (link cur b h).Touches b ↔ b + h.units b = h.next cur := by
      rw [Heap.Touches, link_next_new hne]
      rfl
    by_cases hb : b + h.units b = h.next cur
    · rw [merge, if_pos (htouch.2 hb), joinNext, if_pos hb, link_next_new hne,
        link_next_of_ne hnext (hnot hb)]
      simp only [link, Heap.setNext, Heap.setUnits, Heap.mk.injEq, true_and, and_true]
      rw [update_comm hne.symm, update_idem]
    · rw [merge, if_neg (fun h => hb (htouch.1 h)), joinNext, if_neg hb]
      rfl
  rw [hright]
  generalize joinNext cur b h = g
  have hself : (g.setNext cur b).next cur = b := update_self _ _ _
  have hother : (g.setNext cur b).next b = g.next b := update_of_ne hne _ _
  by_cases hcur : cur + g.units cur = b
  · have htouch : (g.setNext cur b).Touches cur := hcur.trans hself.symm
    rw [joinPrev, if_pos hcur, merge, if_pos htouch, hself, hother]
    simp only [Heap.setNext, Heap.setUnits, update_idem]
  · rw [joinPrev, if_neg hcur, merge, if_neg fun htouch => hcur (htouch.trans hself)]

/-- What freeing `n` units at `b` does to the free blocks. -/
structure Freed (arena : ℕ) (h h' : Heap) (t t' : List ℕ) (b n : ℕ) : Prop where
  coalesced : Coalesced arena h' t'
  sub : ∀ c ∈ h'.slobfree :: t', c = b ∨ c ∈ h.slobfree :: t
  covers : ∀ x, h'.covers (h'.slobfree :: t') x ↔ h.covers (h.slobfree :: t) x ∨ b ≤ x ∧ x < b + n
  total : h'.total (h'.slobfree :: t') = h.total (h.slobfree :: t) + n
  units : ∀ x, x ∉ b :: h.slobfree :: t → h'.units x = h.units x
  pages : h'.pages = h.pages
  room : ∃ c ∈ h'.slobfree :: t', n ≤ h'.units c

theorem merge_pages : (merge a h).pages = h.pages := by
  rw [merge]
  split <;> rfl

/-- Joining a block to the list at the place where it belongs. -/
theorem Coalesced.join (hc : Coalesced arena h t) (hb : b ∉ h.slobfree :: t) (hpos : 0 < h.units b)
    (hdisj : ∀ x, h.has b x → ¬ h.covers (h.slobfree :: t) x) (hbelow : b + h.units b ≠ arena)
    (habove : arena + 1 ≠ b) (hcur : cur ∈ h.slobfree :: t) (hbetween : Between h.next b cur) :
    ∃ t', Freed arena h ((joinPrev cur b (joinNext cur b h)).setSlobfree cur) t t' b (h.units b) := by
  have hne : b ≠ cur := fun heq => hb (heq ▸ hcur)
  obtain ⟨u, hu, huperm⟩ := hc.freeList.enter hcur
  have hbu : b ∉ cur :: u := fun hmem => hb (huperm.mem_iff.1 hmem)
  have harena := huperm.mem_iff.2 hc.arena_mem
  -- a block that touches a lonely neighbour would touch the arena
  have hnot : b + h.units b = h.next cur → h.next cur ≠ cur := by
    intro heq hself
    cases u with
    | nil => exact hbelow ((heq.trans hself).trans (List.mem_singleton.1 harena).symm)
    | cons c u =>
      have hcc : cur = c := hself.symm.trans hu.circle.leads.1
      exact (List.nodup_cons.1 hu.circle.nodup).1 (hcc ▸ List.mem_cons_self)
  rw [join_eq hne (fun heq => hbu (heq ▸ hu.circle.next_mem List.mem_cons_self)) hnot]
  have hlink := hu.link hbu hpos (fun x hx hcov => hdisj x hx ((Heap.covers_perm huperm).1 hcov)) hbetween
  have htouchold : ∀ c ∈ u, ¬ (link cur b h).Touches c := by
    intro c hcu htouch
    have hcb : c ≠ b := fun heq => hbu (heq ▸ List.mem_cons_of_mem cur hcu)
    have hccur : c ≠ cur := fun heq => (List.nodup_cons.1 hu.circle.nodup).1 (heq ▸ hcu)
    rw [Heap.Touches, link_next_of_ne hcb hccur] at htouch
    exact hc.notTouches c (huperm.mem_iff.1 (List.mem_cons_of_mem cur hcu)) htouch
  obtain ⟨v, hv, hvperm⟩ := hlink.enter (List.mem_cons_of_mem cur List.mem_cons_self)
  obtain ⟨v', hmb⟩ := hv.merge
  have hcurv : cur ∈ v := by
    have hmem := hvperm.mem_iff.2 List.mem_cons_self
    exact (List.mem_cons.1 hmem).resolve_left hne.symm
  have hcurv' : cur ∈ v' := by
    refine (hmb.kept cur hcurv).resolve_left ?_
    rintro ⟨heq, htouch⟩
    rw [Heap.Touches, link_next_new hne] at htouch
    rw [link_next_new hne] at heq
    exact hnot htouch heq.symm
  have hbonly : ∀ c ∈ b :: v', (merge b (link cur b h)).Touches c → c = cur := by
    refine hv.touches_merge hmb (fun c hcv htouch => ?_) fun htouch heq => ?_
    · by_contra hccur
      have hmem := hvperm.mem_iff.1 (List.mem_cons_of_mem b hcv)
      have hcb : c ≠ b := fun heq => (List.nodup_cons.1 hv.circle.nodup).1 (heq ▸ hcv)
      rw [List.mem_cons, List.mem_cons] at hmem
      exact htouchold c ((hmem.resolve_left hccur).resolve_left hcb) htouch
    · rw [Heap.Touches, link_next_new hne] at htouch
      rw [link_next_new hne] at heq
      exact hnot htouch heq
  obtain ⟨w, hw, hwperm⟩ := hmb.freeList.enter (List.mem_cons_of_mem b hcurv')
  obtain ⟨w', hmcur⟩ := hw.merge
  have hnone : ∀ c ∈ cur :: w', (merge cur (merge b (link cur b h))).Touches c → False := by
    refine hw.touches_merge hmcur (fun c hcw htouch => ?_) fun _ hfalse => hfalse
    have hccur := hbonly c (hwperm.mem_iff.1 (List.mem_cons_of_mem cur hcw)) htouch
    exact (List.nodup_cons.1 hw.circle.nodup).1 (hccur ▸ hcw)
  have hmemold : ∀ c ∈ cur :: w', c = b ∨ c ∈ h.slobfree :: t := by
    intro c hcw
    have hcw : c ∈ cur :: w := (List.mem_cons.1 hcw).elim (fun heq => heq ▸ List.mem_cons_self)
      fun hmem => List.mem_cons_of_mem cur (hmcur.sub c hmem)
    have hcv : c ∈ b :: v' := hwperm.mem_iff.1 hcw
    have hcv : c ∈ b :: v := (List.mem_cons.1 hcv).elim (fun heq => heq ▸ List.mem_cons_self)
      fun hmem => List.mem_cons_of_mem b (hmb.sub c hmem)
    have hlinked := hvperm.mem_iff.1 hcv
    rw [List.mem_cons, List.mem_cons] at hlinked
    rw [← huperm.mem_iff, List.mem_cons]
    tauto
  have hcurnext : (merge b (link cur b h)).next cur = b :=
    (merge_next_of_ne hne.symm).trans link_next_self
  have hunits : ∀ x, x ≠ b → x ≠ cur →
      (merge cur (merge b (link cur b h))).units x = h.units x := fun x hxb hxcur =>
    (merge_units_of_ne hxcur).trans (merge_units_of_ne hxb)
  have hbarena : arena ≠ b := fun heq => hb (heq ▸ hc.arena_mem)
  have harena' : arena ∈ cur :: w' := by
    rcases List.mem_cons.1 harena with heq | hau
    · exact heq ▸ List.mem_cons_self
    · have hav : arena ∈ b :: v :=
        hvperm.mem_iff.2 (List.mem_cons_of_mem cur (List.mem_cons_of_mem b hau))
      have hav' : arena ∈ v' := by
        refine (hmb.kept arena ((List.mem_cons.1 hav).resolve_left hbarena)).resolve_left ?_
        rintro ⟨heq, htouch⟩
        exact hbelow (htouch.trans heq.symm)
      rcases List.mem_cons.1 (hwperm.mem_iff.2 (List.mem_cons_of_mem b hav')) with heq | haw
      · exact heq ▸ List.mem_cons_self
      · refine List.mem_cons_of_mem cur ((hmcur.kept arena haw).resolve_left ?_)
        rintro ⟨heq, -⟩
        exact hbarena (heq.trans hcurnext)
  have hone : (merge cur (merge b (link cur b h))).units arena = 1 := by
    by_cases hac : arena = cur
    · have hold : (merge b (link cur b h)).units cur = h.units cur := merge_units_of_ne hne.symm
      have hnot : ¬ (merge b (link cur b h)).Touches cur := by
        intro htouch
        rw [Heap.Touches, hcurnext, hold, ← hac, hc.arena_units] at htouch
        exact habove htouch
      rw [merge, if_neg hnot, hac, hold, ← hac]
      exact hc.arena_units
    · exact (hunits arena hbarena hac).trans hc.arena_units
  have hroom : ∃ c ∈ cur :: w', h.units b ≤ (merge cur (merge b (link cur b h))).units c := by
    have hle : h.units b ≤ (merge b (link cur b h)).units b := le_merge_units (h := link cur b h)
    have hbw := hwperm.mem_iff.2 (List.mem_cons_self (a := b) (l := v'))
    rcases hmcur.kept b ((List.mem_cons.1 hbw).resolve_left hne) with ⟨heq, htouch⟩ | hbw'
    · refine ⟨cur, List.mem_cons_self, ?_⟩
      rw [merge_units_self htouch, hcurnext]
      exact hle.trans (Nat.le_add_left _ _)
    · exact ⟨b, List.mem_cons_of_mem cur hbw', hle.trans_eq (merge_units_of_ne hne).symm⟩
  refine ⟨w', ⟨hmcur.freeList.congr (fun _ _ => rfl) fun _ _ => rfl, fun c hcw => hnone c hcw,
      harena', hone⟩, hmemold, fun x => ?_, ?_, fun x hx => ?_, merge_pages.trans merge_pages, hroom⟩
  · calc (merge cur (merge b (link cur b h))).covers (cur :: w') x
        ↔ (merge b (link cur b h)).covers (b :: v') x :=
          (hmcur.covers x).trans (Heap.covers_perm hwperm)
      _ ↔ (link cur b h).covers (b :: cur :: u) x :=
          (hmb.covers x).trans (Heap.covers_perm (hvperm.trans (List.Perm.swap b cur u)))
      _ ↔ h.covers (h.slobfree :: t) x ∨ b ≤ x ∧ x < b + h.units b :=
          Heap.covers_cons.trans (or_comm.trans (or_congr_left (Heap.covers_perm huperm)))
  · calc (merge cur (merge b (link cur b h))).total (cur :: w')
        = (merge b (link cur b h)).total (b :: v') := hmcur.total.trans (Heap.total_perm hwperm)
      _ = (link cur b h).total (b :: cur :: u) :=
          hmb.total.trans (Heap.total_perm (hvperm.trans (List.Perm.swap b cur u)))
      _ = h.units b + h.total (cur :: u) := Heap.total_cons
      _ = h.total (h.slobfree :: t) + h.units b := by rw [Heap.total_perm huperm, Nat.add_comm]
  · rw [List.mem_cons, not_or] at hx
    exact hunits x hx.1 fun heq => hx.2 (heq ▸ hcur)

/-- Freeing a block that the free ones do not overlap, away from the arena. -/
theorem slobFree_ok (hc : Coalesced arena h t) {size : ℕ} (hb0 : b ≠ 0) (hn : 0 < n)
    (hsize : size = 0 ∧ h.units b = n ∨ size ≠ 0 ∧ slobUnits size = n)
    (hdisj : ∀ x, b ≤ x → x < b + n → ¬ h.covers (h.slobfree :: t) x) (hbelow : b + n ≠ arena)
    (habove : arena + 1 ≠ b) :
    ∃ h' t', (∀ turns, t.length < turns → slobFree turns b size h = .ok h') ∧
      Freed arena h h' t t' b n := by
  have hb : b ∉ h.slobfree :: t := fun hmem => hdisj b le_rfl (Nat.lt_add_of_pos_right hn)
    ⟨b, hmem, le_rfl, Nat.lt_add_of_pos_right (hc.freeList.pos b hmem)⟩
  generalize hg : (if size ≠ 0 then h.setUnits b (slobUnits size) else h) = g
  have hfields : g.next = h.next ∧ g.slobfree = h.slobfree ∧ g.pages = h.pages ∧ g.units b = n ∧
      ∀ x, x ≠ b → g.units x = h.units x := by
    rw [← hg]
    rcases hsize with ⟨rfl, hub⟩ | ⟨hne, hub⟩
    · exact ⟨rfl, rfl, rfl, hub, fun _ _ => rfl⟩
    · rw [if_pos hne, hub]
      exact ⟨rfl, rfl, rfl, update_self _ _ _, fun x hx => update_of_ne hx _ _⟩
  obtain ⟨hnext, hslob, hpages, hgb, hgx⟩ := hfields
  have hgold : ∀ a ∈ h.slobfree :: t, g.units a = h.units a := fun a ha =>
    hgx a fun heq => hb (heq ▸ ha)
  have hgc : Coalesced arena g t := by
    refine ⟨hslob ▸ hc.freeList.congr (fun a _ => congrFun hnext a) hgold, fun a ha htouch => ?_, hslob ▸ hc.arena_mem,
      (hgold arena hc.arena_mem).trans hc.arena_units⟩
    rw [hslob] at ha
    rw [Heap.Touches, hgold a ha, hnext] at htouch
    exact hc.notTouches a ha htouch
  have hplace := hgc.freeList.ascending.exists_between (List.cons_ne_nil _ _)
    (fun a ha => hgc.freeList.circle.next_mem ha) (hslob ▸ hb)
  have hstop : ∃ cur ∈ g.slobfree :: t, decide (Between g.next b cur) = true := by simpa using hplace
  obtain ⟨cur, hcur, hwalk, hbetween⟩ := hgc.freeList.circle.leads.walk hstop (Nat.lt_succ_self _)
  obtain ⟨t', hfreed⟩ := hgc.join (hslob ▸ hb) (hgb ▸ hn)
    (fun x hx hcov => hdisj x hx.1 (hgb ▸ hx.2) ((Heap.covers_congr hgold).1 (hslob ▸ hcov)))
    (hgb ▸ hbelow) habove hcur (of_decide_eq_true hbetween)
  rw [hgb] at hfreed
  refine ⟨_, t', fun turns hturns => ?_, ⟨hfreed.coalesced, hslob ▸ hfreed.sub, fun x => ?_, ?_,
    fun x hx => ?_, hfreed.pages.trans hpages, hfreed.room⟩⟩
  · rw [slobFree, if_neg hb0]
    simp only [hg, findPoint, walk_mono hwalk hturns]
  · rw [hfreed.covers x, hslob, Heap.covers_congr hgold]
  · rw [hfreed.total, hslob, Heap.total_congr hgold]
  · rw [hfreed.units x (hslob ▸ hx)]
    exact hgx x fun heq => hx (heq ▸ List.mem_cons_self)

end Ucore.Slob
