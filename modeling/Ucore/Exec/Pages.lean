import Ucore.Exec.Model

/-!
# The pages of a new address space

`Own` says that the address space that is built shares no frame.  A page that is allocated, and bytes
that are stored into a page, change this page only (`Puts`), and so does `load_icode_copy_to_user`
(`copyToUser_spec`) the bytes that it stores.
-/

namespace Ucore.Exec

open Cow (State Perm PTE_V Answers Bytes has allocPage freePage pageInsert getPte putBytes putPage Stores
  E_NO_MEM mapping view Sharing)
open Vmm (Uintptr)

/-- The counters are right, and a frame of the address space `a` belongs to one page of it. -/
structure Own (pool : Set ℕ) (a : ℕ) (s : State) : Prop where
  sharing : Sharing pool ∅ s
  alone : ∀ p x f, mapping s (a, p) = some f → mapping s x = some f → x = (a, p)

/-- Only page `p` of `a` changes: it has the bytes `d`, and these flags. -/
structure Puts (s s' : State) (a p : ℕ) (flags : Perm) (d : Bytes) : Prop where
  flags : (s'.pte a p).flags = flags
  view : view s' = Function.update (view s) (a, p) (some d)
  others : ∀ b q, (b, q) ≠ (a, p) → s'.pte b q = s.pte b q

variable {pool : Set ℕ} {a p f : ℕ} {s s' s'' : State} {perm fl : Perm} {d : Bytes} {off : ℕ}
  {bytes : List UInt8}

theorem Puts.trans {d' : Bytes} {fl' : Perm} (h : Puts s s' a p fl d) (h' : Puts s' s'' a p fl' d') :
    Puts s s'' a p fl' d' := by
  refine ⟨h'.flags, ?_, fun b q hne => (h'.others b q hne).trans (h.others b q hne)⟩
  rw [h'.view, h.view, Function.update_idem]

/-- A page of the address space has a frame of its own. -/
theorem Own.ref_one (h : Own pool a s) (hf : mapping s (a, p) = some f) : s.ref f = 1 := by
  have hkeys : RefCount.keysOf (mapping s) f = {(a, p)} :=
    Set.eq_singleton_iff_unique_mem.mpr ⟨hf, fun x hx => h.alone p x f hf hx⟩
  have hcount := h.sharing.counts f
  rw [hkeys, Set.encard_singleton] at hcount
  exact_mod_cast hcount.symm

/-- **`pgdir_alloc_page`**: without a page nothing has changed. -/
theorem pgdirAllocPage_spec (h : Own pool a s) (answers : Answers) (p : ℕ) (hperm : PTE_V ||| perm = perm) :
    pgdirAllocPage answers a p perm s = .ok (none, s) ∨
      ∃ page s', pgdirAllocPage answers a p perm s = .ok (some page, s') ∧ Own pool a s' ∧
        mapping s' (a, p) = some page ∧ ∃ d, Puts s s' a p perm d := by
  rw [pgdirAllocPage]
  cases halloc : allocPage answers.page s with
  | none => exact Or.inl rfl
  | some r =>
    obtain ⟨page, s₁⟩ := r
    obtain ⟨h₁, hpool, hfree, href, hmap, hdata, hmm, hwas, heq₁⟩ := Cow.allocPage_spec h.sharing halloc
    have hno : ∀ y, mapping s₁ y ≠ some page := fun y => h₁.counts.ne_some href
    have hpte : ∀ b q, s₁.pte b q = s.pte b q := fun b q => congrArg (fun m => (m b).pte q) hmm
    rcases Cow.pageInsert_spec answers.table (a := a) (p := p) h₁ hpool hfree
      (fun _ : has perm Cow.PTE_W = true => href) (fun y hy => absurd hy (hno y)) with
      ⟨heq, -⟩ | ⟨s', heq, h', hi⟩
    · left
      have hne : -E_NO_MEM ≠ 0 := by decide
      simp only [heq, if_pos hne]
      rw [heq₁, freePage]
      simp only [Function.update_idem]
      rw [← hwas, Function.update_eq_self]
    · right
      rw [Set.sdiff_self] at h'
      have hmapping : mapping s' = Function.update (mapping s) (a, p) (some page) := by
        rw [hi.mapping, hmap]
      have hself : mapping s' (a, p) = some page := by rw [hmapping, Function.update_self]
      have halone : ∀ q x g, mapping s' (a, q) = some g → mapping s' x = some g → x = (a, q) := by
        intro q x g hq hx
        rw [hmapping] at hq hx
        by_cases hqp : (a, q) = (a, p)
        · rw [hqp] at hq ⊢
          rw [Function.update_self] at hq
          cases hq
          by_contra hne
          rw [Function.update_of_ne hne, ← hmap] at hx
          exact hno x hx
        · rw [Function.update_of_ne hqp] at hq
          by_cases hxp : x = (a, p)
          · rw [hxp, Function.update_self] at hx
            cases hx
            rw [← hmap] at hq
            exact absurd hq (hno _)
          · rw [Function.update_of_ne hxp] at hx
            exact h.alone q x g hq hx
      have hown : Own pool a s' := ⟨h', halone⟩
      have hone := hown.ref_one hself
      refine ⟨page, s', ?_, hown, hself, s.data page, ?_, ?_, fun b q hne => ?_⟩
      · simp only [heq, ne_eq, not_true, if_false, if_pos hone]
      · rw [hi.pte, Cow.pteCreate, ← BitVec.or_assoc, BitVec.or_self, hperm]
      · funext x
        show (mapping s' x).map s'.data = _
        rw [hmapping, hi.data, hdata]
        by_cases hx : x = (a, p)
        · rw [hx, Function.update_self, Function.update_self]
          rfl
        · rw [Function.update_of_ne hx, Function.update_of_ne hx]
          rfl
      · rw [hi.others b q hne, hpte]

/-- Bytes are stored into a page of the address space. -/
theorem putPage_spec (h : Own pool a s) (hf : mapping s (a, p) = some f) (off : ℕ) (bytes : List UInt8) :
    Own pool a (putPage f off bytes s) ∧ mapping (putPage f off bytes s) = mapping s ∧
      Puts s (putPage f off bytes s) a p (s.pte a p).flags (putBytes (s.data f) off bytes) :=
  ⟨⟨h.sharing.setData f _, h.alone⟩, rfl, rfl,
    Cow.view_setData_of_alone hf fun y hy => h.alone p y f hf hy, fun _ _ _ => rfl⟩

/-! ### Bytes -/

/-- Bytes in one page. -/
theorem Own.putPage (h : Own pool a s) (hf : mapping s (a, p) = some f) (off : ℕ)
    (hlen : off + bytes.length ≤ 4096) :
    Own pool a (putPage f off bytes s) ∧ Stores s (putPage f off bytes s) a (4096 * p + off) bytes :=
  ⟨(putPage_spec h hf off bytes).1, Cow.stores_putPage off bytes hf (fun y hy => h.alone p y f hf hy) hlen⟩

theorem pageOf_eq {la : Uintptr} (h : la.toNat < 2 ^ 39) : pageOf la = la.toNat / 4096 := by
  rw [pageOf]
  omega

theorem copyToUserLoop_spec (n : ℕ) (dst : Uintptr) (bytes : List UInt8) (h : Own pool a s)
    (hn : bytes.length ≤ n) (hdst : dst.toNat + bytes.length ≤ 2 ^ 39) :
    (copyToUserLoop a n dst bytes s = .error (-E_NO_MEM) ∧
      ∃ i < bytes.length, mapping s (a, (dst.toNat + i) / 4096) = none) ∨
    ∃ s', copyToUserLoop a n dst bytes s = .ok s' ∧ Own pool a s' ∧ Stores s s' a dst.toNat bytes := by
  induction n generalizing dst bytes s with
  | zero =>
    have hnil := List.eq_nil_of_length_eq_zero (Nat.le_zero.mp hn)
    subst hnil
    exact Or.inr ⟨s, rfl, h, .nil s a _⟩
  | succ n ih =>
    rw [copyToUserLoop]
    by_cases hnil : bytes = []
    · subst hnil
      exact Or.inr ⟨s, if_pos rfl, h, .nil s a _⟩
    have hpos := List.length_pos_iff.mpr hnil
    rw [if_neg hnil, pageOf_eq (by omega)]
    have hnone : mapping s (a, dst.toNat / 4096) = none → ∃ i < bytes.length,
        mapping s (a, (dst.toNat + i) / 4096) = none := fun hm => ⟨0, hpos, hm⟩
    rcases Cow.getPte_false (a := a) (p := dst.toNat / 4096) (s := s) false with hget | ⟨hget, htable⟩
    swap
    · rw [hget]
      refine Or.inl ⟨rfl, hnone (Cow.mapping_eq_none.mpr ?_)⟩
      rw [h.sharing.table a _ htable]
      rfl
    rw [hget]
    dsimp only
    by_cases hvalid : has (s.pte a (dst.toNat / 4096)).flags PTE_V = false
    · rw [if_pos hvalid]
      exact Or.inl ⟨rfl, hnone (Cow.mapping_eq_none.mpr hvalid)⟩
    rw [if_neg hvalid]
    have hmap := Cow.mapping_eq_some.mpr ⟨Bool.eq_true_of_not_eq_false hvalid, rfl⟩
    obtain ⟨copy, hcopy⟩ : ∃ copy, copy =
        if 4096 - dst.toNat % 4096 > bytes.length then bytes.length else 4096 - dst.toNat % 4096 := ⟨_, rfl⟩
    rw [← hcopy]
    have hcopy' : copy ≤ bytes.length ∧ 0 < copy ∧ dst.toNat % 4096 + copy ≤ 4096 := by
      split at hcopy
      · omega
      · omega
    have htake : (bytes.take copy).length = copy := List.length_take_of_le hcopy'.1
    have hdrop : (bytes.drop copy).length = bytes.length - copy := List.length_drop
    have hstart : 4096 * (dst.toNat / 4096) + dst.toNat % 4096 = dst.toNat := Nat.div_add_mod ..
    have hnext : (dst + BitVec.ofNat 64 copy).toNat = dst.toNat + copy := by
      rw [BitVec.toNat_add, BitVec.toNat_ofNat]
      omega
    obtain ⟨hown, hst⟩ := h.putPage hmap (dst.toNat % 4096) (by rw [htake]; exact hcopy'.2.2)
    rw [hstart] at hst
    rcases ih (dst + BitVec.ofNat 64 copy) (bytes.drop copy) hown (by omega) (by omega) with ⟨herr, i, hi, hunmapped⟩ | ⟨s', hrun, hown', hst'⟩
    · refine Or.inl ⟨herr, copy + i, by omega, ?_⟩
      rw [hst.mapping, hnext, Nat.add_assoc] at hunmapped
      exact hunmapped
    · rw [hnext] at hst'
      have hall := hst.append (by rw [htake]; exact hst')
      rw [List.take_append_drop] at hall
      exact Or.inr ⟨s', hrun, hown', hall⟩

/-- **`load_icode_copy_to_user`** stores the bytes, or one of their pages is not mapped. -/
theorem loadIcodeCopyToUser_spec (h : Own pool a s) (dst : Uintptr) (bytes : List UInt8)
    (hdst : dst.toNat + bytes.length ≤ 2 ^ 39) :
    (loadIcodeCopyToUser a dst bytes s = .error (-E_NO_MEM) ∧
      ∃ i < bytes.length, mapping s (a, (dst.toNat + i) / 4096) = none) ∨
    ∃ s', loadIcodeCopyToUser a dst bytes s = .ok s' ∧ Own pool a s' ∧ Stores s s' a dst.toNat bytes :=
  copyToUserLoop_spec bytes.length dst bytes h le_rfl hdst

end Ucore.Exec
