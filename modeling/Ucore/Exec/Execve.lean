import Ucore.Exec.Kargv
import Ucore.Exec.Load

/-!
# The arguments of a new program

For any program file the pages that `load_icode` has mapped are those of the new address space alone
(`Image.Kept`), so the arguments can be stored.  What `copy_kargv` has copied is found on the new stack
(**`execve_argv_iff`**), unless a page of a segment is refused.
-/

namespace Ucore.Exec

open Cow (State Perm PTE_V putPage E_NO_MEM mapping Sharing)
open Fallible (bind_ok bind_eq_ok)
open Vmm (Uintptr Mm MmStruct Memory mmMap)

variable {env : Env} {pool : Set ℕ} {a n i : ℕ} {perm : Perm} {ph : Proghdr} {x x' : Fill} {stop : Uintptr}
  {image image' : Image} {elf : Elfhdr} {pages : State}

/-! ### The pages, for any program -/

/-- The address space has its pages for itself, and `page` is one of them. -/
structure Image.Kept (pool : Set ℕ) (a : ℕ) (image : Image) : Prop where
  own : Own pool a image.pages
  page : ∀ f, image.page = some f → ∃ p, mapping image.pages (a, p) = some f

theorem Fill.nextPage_kept {page : ℕ} {off size : Uintptr} (h : Own pool a x.pages)
    (hperm : PTE_V ||| perm = perm) (hrun : x.nextPage env a perm stop = .ok (x', page, off, size)) :
    Own pool a x'.pages ∧ ∃ p, mapping x'.pages (a, p) = some page ∧ x'.page = some page := by
  rw [Fill.nextPage] at hrun
  rcases pgdirAllocPage_spec h (env.answers x.allocs) (pageOf x.la) hperm with
    hnone | ⟨f, s', hsome, hown, hmap, -⟩
  · rw [hnone] at hrun
    cases hrun
  · rw [hsome] at hrun
    cases hrun
    exact ⟨hown, pageOf x.la, hmap, rfl⟩

/-- Bytes are stored into a page. -/
theorem Image.Kept.putPage {f p off : ℕ} {bytes : List UInt8} (h : Own pool a image.pages)
    (hf : mapping image.pages (a, p) = some f) (hpage : image'.page = some f)
    (hpages : image'.pages = putPage f off bytes image.pages) : image'.Kept pool a := by
  obtain ⟨hown, hmap, -⟩ := putPage_spec h hf off bytes
  refine ⟨hpages ▸ hown, fun g hg => ⟨p, ?_⟩⟩
  rw [hpages, hmap, hf, ← hpage, hg]

theorem Fill.readTurn_kept (hperm : PTE_V ||| perm = perm) (h : x.Kept pool a)
    (hrun : x.readTurn env a perm stop = .ok x') : x'.Kept pool a := by
  obtain ⟨⟨x₁, page, off, size⟩, hnext, hrun⟩ := bind_eq_ok.mp hrun
  obtain ⟨hown, p, hmap, hpage⟩ := Fill.nextPage_kept h.own hperm hnext
  obtain ⟨⟨ret, bytes⟩, hread⟩ : ∃ r,
      loadIcodeRead (env.io x₁.reads) env.file size.toNat x₁.filepos = r := ⟨_, rfl⟩
  simp only [hread] at hrun
  by_cases hret : ret ≠ 0
  · rw [if_pos hret] at hrun
    exact nomatch hrun
  · rw [if_neg hret] at hrun
    cases hrun
    exact Image.Kept.putPage hown hmap hpage rfl

theorem Fill.zeroTurn_kept (hperm : PTE_V ||| perm = perm) (h : x.Kept pool a)
    (hrun : x.zeroTurn env a perm stop = .ok x') : x'.Kept pool a := by
  obtain ⟨⟨x₁, page, off, size⟩, hnext, hrun⟩ := bind_eq_ok.mp hrun
  obtain ⟨hown, p, hmap, hpage⟩ := Fill.nextPage_kept h.own hperm hnext
  cases hrun
  exact Image.Kept.putPage hown hmap hpage rfl

theorem Fill.loop_kept {turn : Fill → Except Stop Fill}
    (hturn : ∀ x x', x.Kept pool a → turn x = .ok x' → x'.Kept pool a) (n : ℕ) (h : x.Kept pool a)
    (hrun : Fill.loop turn stop n x = .ok x') : x'.Kept pool a := by
  induction n generalizing x with
  | zero =>
    rw [Fill.loop] at hrun
    split at hrun
    case isTrue => cases hrun
    case isFalse =>
      cases hrun
      exact h
  | succ n ih =>
    rw [Fill.loop] at hrun
    split at hrun
    case isTrue =>
      obtain ⟨x₁, hok, hrest⟩ := bind_eq_ok.mp hrun
      exact ih (hturn x x₁ h hok) hrest
    case isFalse =>
      cases hrun
      exact h

theorem Fill.clearPartial_kept (h : x.Kept pool a) (hrun : x.clearPartial stop = .ok x') :
    x'.Kept pool a := by
  cases hpage : x.page with
  | none =>
    simp only [Fill.clearPartial, hpage] at hrun
    split_ifs at hrun
    all_goals
      cases hrun
      exact h
  | some page =>
    obtain ⟨p, hmap⟩ := h.page page hpage
    simp only [Fill.clearPartial, hpage] at hrun
    split_ifs at hrun
    · cases hrun
      exact h
    · cases hrun
      exact Image.Kept.putPage h.own hmap rfl rfl
    · cases hrun
      exact Image.Kept.putPage h.own hmap rfl rfl
    · cases hrun
      exact h

theorem fillSegment_kept (h : image.Kept pool a) (hrun : fillSegment env a ph image = .ok image') :
    image'.Kept pool a := by
  obtain ⟨x₁, hread, hrun⟩ := bind_eq_ok.mp hrun
  obtain ⟨x₂, hclear, hrun⟩ := bind_eq_ok.mp hrun
  obtain ⟨x₃, hzero, hrun⟩ := bind_eq_ok.mp hrun
  have hperm := segPerm_valid ph.pFlags
  have h₁ : x₁.Kept pool a := Fill.loop_kept (fun x x' => Fill.readTurn_kept hperm) _ ⟨h.own, h.page⟩ hread
  have h₃ : x₃.Kept pool a :=
    Fill.loop_kept (fun x x' => Fill.zeroTurn_kept hperm) _ (Fill.clearPartial_kept h₁ hclear) hzero
  cases hrun
  exact h₃

theorem loadSegment_kept (h : image.Kept pool a) (hrun : loadSegment env a ph image = .ok image') :
    image'.Kept pool a := by
  rw [loadSegment] at hrun
  split_ifs at hrun
  · cases hrun
    exact h
  · cases hrun
    exact h
  · cases hmap : mmMap (env.vma image.vmas) image.mm ph.pVa ph.pMemsz (segVmFlags ph.pFlags) with
    | error p =>
      rw [hmap] at hrun
      cases hrun
    | ok r =>
      rw [hmap] at hrun
      dsimp only at hrun
      split_ifs at hrun
      have h₁ : Image.Kept pool a { image with mm := r.2.2, vmas := image.vmas + 1 } := ⟨h.own, h.page⟩
      exact fillSegment_kept h₁ hrun

/-- **The segments of any program.** -/
theorem loadSegments_kept (n i : ℕ) (h : image.Kept pool a)
    (hrun : loadSegments env a elf n i image = .ok image') : image'.Kept pool a := by
  induction n generalizing i image with
  | zero =>
    cases hrun
    exact h
  | succ n ih =>
    rw [loadSegments] at hrun
    dsimp only at hrun
    split_ifs at hrun
    obtain ⟨image₁, hok, hrest⟩ := bind_eq_ok.mp hrun
    have h₁ : Image.Kept pool a { image with reads := image.reads + 1 } := ⟨h.own, h.page⟩
    exact ih (i + 1) (loadSegment_kept h₁ hok) hrest

/-! ### The way to the arguments -/

/-- `load_icode` comes to the arguments, with this address space. -/
def ToArguments (env : Env) (a : ℕ) (pages : State) (image : Image) : Prop :=
  env.mmCreate = true ∧ env.setupPgdir = true ∧
    ∃ bytes s area mm, loadIcodeRead (env.io 0) env.file sizeofElfhdr 0 = (0, bytes) ∧
      (decodeElfhdr (fileAt bytes 0)).eMagic = ELF_MAGIC ∧
      loadSegments env a (decodeElfhdr (fileAt bytes 0)) (decodeElfhdr (fileAt bytes 0)).ePhnum 0
        ⟨⟨[], none, 0⟩, pages, 1, 0, 0, none⟩ = .ok s ∧
      mmMap (env.vma s.vmas) s.mm (USTACKTOP - USTACKSIZE) USTACKSIZE
        (Vmm.VM_READ ||| Vmm.VM_WRITE ||| Vmm.VM_STACK) = .ok (0, area, mm) ∧
      stackPages env a 4 0 { s with mm := mm, vmas := s.vmas + 1 } = .ok image

/-- The first pages of the stack are mapped. -/
theorem ToArguments.own (h : ToArguments env a pages image) (hown : Own pool a pages) :
    Own pool a image.pages ∧ ∀ q, 0x7FFFC ≤ q → q < 0x80000 → mapping image.pages (a, q) ≠ none := by
  obtain ⟨-, -, bytes, s, area, mm, -, -, hsegments, -, hstack⟩ := h
  have hkept : Image.Kept pool a ⟨⟨[], none, 0⟩, pages, 1, 0, 0, none⟩ := ⟨hown, fun f hf => nomatch hf⟩
  have hkept' := loadSegments_kept _ _ hkept hsegments
  rcases stackPages_spec env 4 0 { s with mm := mm, vmas := s.vmas + 1 } le_rfl hkept'.own with
    ⟨stop, herr, -⟩ | ⟨image', hok, hown', -, hmapped⟩
  · exact nomatch hstack.symm.trans herr
  · cases Except.ok.inj (hstack.symm.trans hok)
    exact ⟨hown', hmapped⟩

variable {kargv : List (List UInt8)} {sstatus : Uintptr}

/-- With too many or too long arguments, what `load_icode_copy_to_user` returns is returned. -/
theorem ToArguments.error {ret : ℤ} (h : ToArguments env a pages image)
    (hargv : pushArgv a kargv image.pages = .error ret) :
    loadIcode env a none kargv sstatus pages = .ok (ret, none) := by
  obtain ⟨hmm, hpgdir, bytes, s, area, mm, hread, hmagic, hsegments, hmap, hstack⟩ := h
  have hbuild : buildImage env a kargv sstatus pages = .error (.cleanup ret) := by
    rw [buildImage]
    simp only [hread]
    rw [if_neg (not_not.mpr rfl), if_neg (not_not.mpr hmagic), hsegments, bind_ok, loadStack, hmap]
    dsimp only
    rw [if_neg (not_not.mpr rfl), hstack, bind_ok, hargv]
  rw [loadIcode, if_neg (not_not.mpr rfl), hmm, hpgdir, if_neg Bool.noConfusion, if_neg Bool.noConfusion,
    hbuild]

/-- An address space that is built. -/
theorem loadIcode_some {ret : ℤ} {l : Loaded} (h : loadIcode env a none kargv sstatus pages = .ok (ret, some l)) :
    ∃ image argvUser, ToArguments env a pages image ∧
      pushArgv a kargv image.pages = .ok (argvUser, l.pages) ∧ l.tf.sp = alignWord argvUser ∧
      l.tf.a0 = BitVec.ofNat 64 kargv.length ∧ l.tf.a1 = argvUser := by
  rw [loadIcode, if_neg (not_not.mpr rfl)] at h
  by_cases hmm : env.mmCreate = false
  · rw [if_pos hmm] at h
    cases h
  by_cases hpgdir : env.setupPgdir = false
  · rw [if_neg hmm, if_pos hpgdir] at h
    cases h
  rw [if_neg hmm, if_neg hpgdir] at h
  cases hbuild : buildImage env a kargv sstatus pages with
  | error stop =>
    rw [hbuild] at h
    cases stop with
    | panic p => cases h
    | cleanup ret => cases h
  | ok l' =>
    rw [hbuild] at h
    cases h
    rw [buildImage] at hbuild
    obtain ⟨⟨ret, bytes⟩, hread⟩ : ∃ r, loadIcodeRead (env.io 0) env.file sizeofElfhdr 0 = r := ⟨_, rfl⟩
    simp only [hread] at hbuild
    by_cases hret : ret ≠ 0
    · rw [if_pos hret] at hbuild
      cases hbuild
    rw [if_neg hret] at hbuild
    rw [not_not] at hret
    subst hret
    by_cases hmagic : (decodeElfhdr (fileAt bytes 0)).eMagic ≠ ELF_MAGIC
    · rw [if_pos hmagic] at hbuild
      cases hbuild
    rw [if_neg hmagic] at hbuild
    obtain ⟨s, hsegments, hbuild⟩ := bind_eq_ok.mp hbuild
    rw [loadStack] at hbuild
    cases hmap : mmMap (env.vma s.vmas) s.mm (USTACKTOP - USTACKSIZE) USTACKSIZE
        (Vmm.VM_READ ||| Vmm.VM_WRITE ||| Vmm.VM_STACK) with
    | error p =>
      rw [hmap] at hbuild
      cases hbuild
    | ok r =>
      obtain ⟨ret, area, mm⟩ := r
      rw [hmap] at hbuild
      dsimp only at hbuild
      by_cases hret : ret ≠ 0
      · rw [if_pos hret] at hbuild
        cases hbuild
      rw [if_neg hret] at hbuild
      rw [not_not] at hret
      subst hret
      obtain ⟨image, hstack, hbuild⟩ := bind_eq_ok.mp hbuild
      cases hargv : pushArgv a kargv image.pages with
      | error ret =>
        rw [hargv] at hbuild
        cases hbuild
      | ok r =>
        obtain ⟨argvUser, p⟩ := r
        rw [hargv] at hbuild
        cases hbuild
        exact ⟨image, argvUser, ⟨Bool.eq_true_of_not_eq_false hmm, Bool.eq_true_of_not_eq_false hpgdir,
          bytes, s, area, mm, hread, not_not.mp hmagic, hsegments, hmap, hstack⟩, hargv, rfl, rfl, rfl⟩

/-! ### The new stack -/

/-- The process has the strings at `args i`, and `argv`: strings and array are apart from each other and in
the part of the stack that is mapped, not below `sp`. -/
structure ArgvRight (mem : Memory) (argv : Uintptr) (argc a : ℕ) (l : Loaded) (args : List (List UInt8))
    (addr : ℕ → ℕ) : Prop where
  length : args.length = argc
  user : ∀ i (hi : i < args.length), UserString mem (argPtr mem argv i) args[i]
  a0 : l.tf.a0 = BitVec.ofNat 64 argc
  aligned : l.tf.a1.toNat % 8 = 0
  pointers : ∀ i < argc, Holds l.pages a (l.tf.a1.toNat + 8 * i) (wordBytes (BitVec.ofNat 64 (addr i)))
  last : Holds l.pages a (l.tf.a1.toNat + 8 * argc) (wordBytes 0)
  strings : ∀ i (hi : i < args.length), Holds l.pages a (addr i) (args[i] ++ [0])
  array : ∀ i < argc, l.tf.a1.toNat + 8 * (argc + 1) ≤ addr i
  apart : ∀ i (hi : i < args.length), ∀ j < argc, i < j → addr i + (args[i].length + 1) ≤ addr j
  top : ∀ i (hi : i < args.length), addr i + (args[i].length + 1) ≤ USTACKTOP.toNat
  sp : (USTACKTOP - USTACKSIZE).toNat ≤ l.tf.sp.toNat ∧ l.tf.sp.toNat ≤ l.tf.a1.toNat
  mapped : ∀ y, l.tf.a1.toNat ≤ y → y < USTACKTOP.toNat → mapping l.pages (a, y / 4096) ≠ none

theorem argAddr_drop {args : List (List UInt8)} (hlen : ∀ arg ∈ args, arg.length ≤ EXEC_MAX_ARG_LEN)
    (hnum : args.length ≤ EXEC_MAX_ARG_NUM) (i : ℕ) (hi : i < args.length) :
    argAddr (args.drop i) + (args[i].length + 1) ≤ argAddr (args.drop (i + 1)) := by
  have hdrop : args.drop i = args[i] :: args.drop (i + 1) := List.drop_eq_getElem_cons hi
  have hlen' : ∀ arg ∈ args.drop (i + 1), arg.length ≤ EXEC_MAX_ARG_LEN :=
    fun arg harg => hlen arg (List.mem_of_mem_drop harg)
  have hlow := le_argAddr hlen'
  have hi' : args[i].length ≤ 4095 := hlen _ (List.getElem_mem hi)
  change args.length ≤ 32 at hnum
  rw [List.length_drop] at hlow
  rw [hdrop, argAddr_cons]
  omega

theorem argAddr_drop_le (args : List (List UInt8)) {i j : ℕ} (hij : i ≤ j) :
    argAddr (args.drop i) ≤ argAddr (args.drop j) := by
  have hdrop : (args.drop i).drop (j - i) = args.drop j := by
    rw [List.drop_drop, Nat.add_sub_cancel' hij]
  have hle := argAddr_append_le ((args.drop i).take (j - i)) ((args.drop i).drop (j - i))
  rw [List.take_append_drop, hdrop] at hle
  exact hle

theorem length_le_of_user {mem : Memory} {argv : Uintptr} {args : List (List UInt8)}
    (huser : ∀ i (hi : i < args.length), UserString mem (argPtr mem argv i) args[i]) :
    ∀ arg ∈ args, arg.length ≤ EXEC_MAX_ARG_LEN := by
  intro arg harg
  obtain ⟨i, hi, rfl⟩ := List.mem_iff_getElem.mp harg
  exact (huser i hi).short

/-- Arguments that are laid out. -/
theorem Laid.argvRight {mem : Memory} {argv : Uintptr} {args : List (List UInt8)} {s : State} {l : Loaded}
    (hlaid : Laid l.pages a args) (hnum : args.length ≤ EXEC_MAX_ARG_NUM)
    (huser : ∀ i (hi : i < args.length), UserString mem (argPtr mem argv i) args[i])
    (hpushed : Pushed s l.pages a (argvAddr args) 0x80000000)
    (ha0 : l.tf.a0 = BitVec.ofNat 64 args.length) (ha1 : l.tf.a1.toNat = argvAddr args)
    (hsp : l.tf.sp = l.tf.a1) :
    ArgvRight mem argv args.length a l args fun i => argAddr (args.drop i) := by
  have hlen := length_le_of_user huser
  obtain ⟨hlow, hargv⟩ := le_argvAddr hlen hnum
  have hmod := argvAddr_mod args
  have hnext := argAddr_drop hlen hnum
  have htop : USTACKTOP.toNat = 0x80000000 := rfl
  refine ⟨rfl, huser, ha0, by omega, ?_, ?_, hlaid.strings, fun i _ => ?_, fun i hi j _ hij => ?_,
    fun i hi => ?_, ⟨?_, (congrArg BitVec.toNat hsp).le⟩, fun y hlo hhi => ?_⟩
  · rw [ha1]
    exact hlaid.pointers
  · rw [ha1]
    exact hlaid.last
  · have hle := argAddr_drop_le args (Nat.zero_le i)
    rw [List.drop_zero] at hle
    omega
  · exact (hnext i hi).trans (argAddr_drop_le args hij)
  · exact (hnext i hi).trans (argAddr_le _)
  · rw [hsp, ha1]
    show 0x7FF00000 ≤ _
    omega
  · rw [hpushed.mapping_eq]
    exact hpushed.mapped y (by omega) (by omega)

/-! ### One argument -/

/-- `argv` at 0x200000, and the string `a` at 0x200100. -/
def argMem : Memory := fun x =>
  if x = 0x200001 then 1 else if x = 0x200002 then 0x20 else if x = 0x200100 then 97 else 0

theorem copyKargv_argMem : ∃ kargv mm' mem', copyKargv (some Vmm.readable.toMmStruct) argMem
    (fun _ => some 0xFFFFFFFFC0300000) 1 0x200000 = .ok (kargv, mm', mem') := by
  have hkept : Vmm.Kept (some Vmm.readable.toMmStruct) := by
    intro m hm
    cases hm
    exact ⟨Vmm.readable.ordered, Vmm.readable.cached⟩
  have hpass : ∀ addr len : Uintptr, 0 < len.toNat → 0x200000 ≤ addr.toNat →
      addr.toNat + len.toNat ≤ 0x201000 →
      (Vmm.userMemCheck (some Vmm.readable.toMmStruct) addr len false).1 = true := by
    intro addr len hpos hlo hhi
    obtain ⟨ok, mm', hrun, hiff, -⟩ := Vmm.userMemCheck_spec Vmm.readable.toMmStruct Vmm.readable.ordered
      Vmm.readable.cached addr len false
    refine (congrArg Prod.fst hrun).trans (hiff.mpr ⟨hpos, ⟨hlo, by omega⟩, fun x hx hx' => ?_, nofun⟩)
    exact ⟨_, List.mem_singleton_self _, ⟨hlo.trans hx, by show x < 0x201000; omega⟩, rfl⟩
  cases hcheck : Vmm.userMemCheck (some Vmm.readable.toMmStruct) 0x200000 8 false with
  | mk ok mm₁ =>
  have hok : ok = true := (congrArg Prod.fst hcheck).symm.trans (hpass 0x200000 8 (by decide) (by decide) (by decide))
  subst hok
  obtain ⟨hkept₁, hlist⟩ := Vmm.userMemCheck_keeps hkept hcheck
  have hptr : argPtr argMem 0x200000 0 = 0x200100 := by decide
  have hret : (Vmm.copyString mm₁ argMem 0xFFFFFFFFC0300000 0x200100 4096).ret = true := by
    have hcopies := Vmm.copyStringLoop_spec hkept mm₁ hkept₁ hlist argMem 0xFFFFFFFFC0300000 0x200100 _ 4096
      (Vmm.part_first _) (by decide)
    have hpieces : Vmm.PiecesPass (some Vmm.readable.toMmStruct) 0x200100 (4096 : Uintptr).toNat 1 := by
      intro o ho hpiece
      obtain ⟨hlt, hzero | hpage⟩ := hpiece
      · subst hzero
        exact hpass _ _ (by decide) (by decide) (by decide)
      · have hsrc : (0x200100 : Uintptr).toNat = 0x200100 := rfl
        omega
    exact (hcopies.copied 1 (by decide) ⟨by decide, by decide⟩ hpieces
      (Vmm.apart_kernel hpieces (by decide) (by decide) (by decide))).1
  obtain ⟨r, hr⟩ : ∃ r, Vmm.copyString mm₁ argMem 0xFFFFFFFFC0300000 0x200100 4096 = r := ⟨_, rfl⟩
  rw [hr] at hret
  refine ⟨[0xFFFFFFFFC0300000], r.mm, r.mem, ?_⟩
  have hsize : BitVec.ofNat 64 (8 * 1) = 8 := rfl
  have hmax : BitVec.ofNat 64 (EXEC_MAX_ARG_LEN + 1) = 4096 := rfl
  rw [copyKargv, hsize, hcheck]
  dsimp only
  rw [if_neg Bool.noConfusion, copyKargvLoop]
  simp only [hptr, hmax, hr]
  rw [if_neg (by rw [hret]; exact Bool.noConfusion)]
  rfl

theorem fresh_argMem : Fresh (some Vmm.readable.toMmStruct) argMem (fun _ => some 0xFFFFFFFFC0300000) 1
    0x200000 where
  blocks i hi j hj hij := by omega
  kernel _ i _ b hb := by
    cases hb
    decide
  apart h := nomatch h

/-! ### `argv` on the new stack -/

/-- **The arguments that `copy_kargv` has copied are on the new stack**, or they do not fit and an error is
returned; unless a page is refused when a segment is read in part, which gives 0 without an address space. -/
theorem execve_argv_iff (mm : Option Mm) (mem : Memory) (kmalloc : ℕ → Option Uintptr) (argc : ℕ)
    (argv : Uintptr) (hargc : argc ≤ EXEC_MAX_ARG_NUM)
    (hfresh : Fresh (mm.map Mm.toMmStruct) mem kmalloc argc argv) (kargv : List Uintptr)
    (mm' : Option MmStruct) (mem' : Memory)
    (hcopy : copyKargv (mm.map Mm.toMmStruct) mem kmalloc argc argv = .ok (kargv, mm', mem'))
    (env : Env) (a : ℕ) (sstatus : Uintptr) (pages : State) (hsharing : Sharing pool ∅ pages)
    (hempty : ∀ p, mapping pages (a, p) = none) :
    ((∀ r, loadIcode env a none (kargv.map (kstring mem')) sstatus pages = .ok (0, r) →
        ∃ l args addr, r = some l ∧ ArgvRight mem argv argc a l args addr) ∧
      ∀ image, ToArguments env a pages image →
        (∃ y, argvAddr (kargv.map (kstring mem')) ≤ y ∧ y < USTACKTOP.toNat ∧
          mapping image.pages (a, y / 4096) = none) →
        loadIcode env a none (kargv.map (kstring mem')) sstatus pages = .ok (-E_NO_MEM, none)) ↔
    ¬ PageRefused env a pages := by
  obtain ⟨hcount, huser⟩ := copyKargv_spec mm hargc hfresh hcopy
  obtain ⟨args, hargs⟩ : ∃ args, args = kargv.map (kstring mem') := ⟨_, rfl⟩
  have hlength : args.length = argc := by rw [hargs, List.length_map, hcount]
  have huser' : ∀ i (hi : i < args.length), UserString mem (argPtr mem argv i) args[i] := by
    intro i hi
    subst hargs
    rw [List.getElem_map]
    exact huser i _
  rw [← hargs]
  clear hargs
  subst hlength
  have hlen := length_le_of_user huser'
  have hown : Own pool a pages :=
    ⟨hsharing, fun p x f hf _ => absurd (hf.symm.trans (hempty p)) (Option.some_ne_none f)⟩
  constructor
  · rintro ⟨hright, -⟩ hrefused
    obtain ⟨l, -, -, hl, -⟩ := hright none ((loadIcode_zero_none_iff args sstatus).mpr hrefused)
    exact nomatch hl
  intro hrefused
  refine ⟨fun r hr => ?_, fun image hto hfull => ?_⟩
  · cases r with
    | none => exact absurd ((loadIcode_zero_none_iff args sstatus).mp hr) hrefused
    | some l =>
      obtain ⟨image, argvUser, hto, hargv, hsp, ha0, ha1⟩ := loadIcode_some hr
      rcases pushArgv_spec (hto.own hown).1 hlen hargc with
        ⟨herr, -⟩ | ⟨sp, s', hok, haddr, -, hlaid, hpushed⟩
      · exact nomatch herr.symm.trans hargv
      · cases Except.ok.inj (hok.symm.trans hargv)
        have hmod := argvAddr_mod args
        have halign : alignWord argvUser = argvUser := by
          apply BitVec.eq_of_toNat_eq
          rw [toNat_alignWord]
          omega
        exact ⟨l, args, _, rfl, hlaid.argvRight hargc huser' hpushed ha0 (ha1 ▸ haddr)
          (by rw [hsp, halign, ha1])⟩
  · rcases pushArgv_spec (hto.own hown).1 hlen hargc with
      ⟨herr, -⟩ | ⟨sp, s', hok, -, -, -, hpushed⟩
    · exact hto.error herr
    · obtain ⟨y, hlo, hhi, hnone⟩ := hfull
      exact absurd hnone (hpushed.mapped y hlo hhi)

/-- The argument is on the new stack. -/
theorem execve_argv_iff_one : ∃ kargv mm' mem', copyKargv (some Vmm.readable.toMmStruct) argMem
      (fun _ => some 0xFFFFFFFFC0300000) 1 0x200000 = .ok (kargv, mm', mem') ∧
    ∀ r, loadIcode twoPagesEnv 0 none (kargv.map (kstring mem')) 0 (freePages 8) = .ok (0, r) →
      ∃ l args addr, r = some l ∧ ArgvRight argMem 0x200000 1 0 l args addr := by
  obtain ⟨kargv, mm', mem', hcopy⟩ := copyKargv_argMem
  exact ⟨kargv, mm', mem', hcopy, ((execve_argv_iff (some Vmm.readable) argMem
    (fun _ => some 0xFFFFFFFFC0300000) 1 0x200000 (by decide) fresh_argMem kargv mm' mem' hcopy twoPagesEnv 0
    0 (freePages 8) (start_freePages 8).sharing fun p => (start_freePages 8).mapping (0, p)).mpr
    not_pageRefused_twoPages).1⟩

/-- With one free frame there is no new stack, and the result is 0. -/
theorem execve_argv_refused : ∃ kargv mm' mem', copyKargv (some Vmm.readable.toMmStruct) argMem
      (fun _ => some 0xFFFFFFFFC0300000) 1 0x200000 = .ok (kargv, mm', mem') ∧
    loadIcode twoPagesEnv 0 none (kargv.map (kstring mem')) 0 (freePages 1) = .ok (0, none) ∧
    ¬ ∀ r, loadIcode twoPagesEnv 0 none (kargv.map (kstring mem')) 0 (freePages 1) = .ok (0, r) →
      ∃ l args addr, r = some l ∧ ArgvRight argMem 0x200000 1 0 l args addr := by
  obtain ⟨kargv, mm', mem', hcopy⟩ := copyKargv_argMem
  have hrefused : PageRefused twoPagesEnv 0 (freePages 1) := (loadIcode_zero_none_iff [[97]] 0).mp rfl
  have hrun := (loadIcode_zero_none_iff (kargv.map (kstring mem')) 0).mpr hrefused
  refine ⟨kargv, mm', mem', hcopy, hrun, fun h => ?_⟩
  obtain ⟨l, -, -, hl, -⟩ := h none hrun
  exact nomatch hl

end Ucore.Exec
