import Ucore.Lib.Partial
import Ucore.Sfs.Enumerate

/-!
# The type of an inode

Whatever is on the device, no function of the file system changes the type of an inode or its number,
also where it fails.
-/

namespace Ucore.Sfs

open Memory Fallible

variable {fs : Fs} {sin sin' sin'' : Inode} {write : Bool} {i n : ℕ} {entry : Mem}

/-- The same inode, with other contents. -/
structure SameType (sin sin' : Inode) : Prop where
  type : sin'.din.type = sin.din.type
  ino : sin'.ino = sin.ino

theorem SameType.refl (sin : Inode) : SameType sin sin := ⟨rfl, rfl⟩

theorem SameType.trans (h : SameType sin sin') (h' : SameType sin' sin'') : SameType sin sin'' :=
  ⟨h'.type.trans h.type, h'.ino.trans h.ino⟩

/-! ### The block map -/

theorem bmapOut_type (fs : Fs) (sin : Inode) (ino : ℕ) :
    Yields (bmapOut fs sin ino) fun x => x.2.2 = sin :=
  (Yields.self _).bind fun _ _ => .ok rfl

theorem sfsBmapGet_type (fs : Fs) (sin : Inode) (i : ℕ) (create : Bool) :
    Yields (sfsBmapGet fs sin i create) fun x => SameType sin x.2.2 := by
  have hout : ∀ {fs sin' ino}, SameType sin sin' →
      Yields (bmapOut fs sin' ino) fun x => SameType sin x.2.2 := fun h =>
    (bmapOut_type _ _ _).mono fun x hx => hx ▸ h
  rw [sfsBmapGet]
  refine .ite (fun _ => .ite (fun _ => ?_) fun _ => hout (.refl _)) fun _ =>
    .ite (fun _ => ?_) fun _ => .error _
  · refine (Yields.self _).bind fun x _ => ?_
    obtain ⟨r, fs'⟩ := x
    cases r with
    | error ret => exact .ok (.refl _)
    | ok ino => exact hout ⟨rfl, rfl⟩
  · refine (Yields.self _).bind fun x _ => ?_
    obtain ⟨r, fs'⟩ := x
    cases r with
    | error ret => exact .ok (.refl _)
    | ok p => exact .ite (fun _ => (Yields.self _).bind fun _ _ => hout ⟨rfl, rfl⟩) fun _ => hout (.refl _)

theorem sfsBmapLoad_type (fs : Fs) (sin : Inode) (i : ℕ) :
    Yields (sfsBmapLoad fs sin i) fun x => SameType sin x.2.2 := by
  rw [sfsBmapLoad]
  refine (Yields.self _).bind fun _ _ => (sfsBmapGet_type _ _ _ _).bind fun x hx => ?_
  obtain ⟨r, fs', sin'⟩ := x
  cases r with
  | error ret => exact .ok hx
  | ok ino => exact (Yields.self _).bind fun _ _ => .ite (fun _ => .ok ⟨hx.type, hx.ino⟩) fun _ => .ok hx

theorem sfsBmapTruncate_type (fs : Fs) (sin : Inode) :
    Yields (sfsBmapTruncate fs sin) fun x => SameType sin x.2 := by
  have hfree : Yields (sfsBmapFree fs sin (sin.din.blocks - 1)) fun x => SameType sin x.2 := by
    rw [sfsBmapFree]
    refine .ite (fun _ => .ite (fun _ => ?_) fun _ => .ok (.refl _)) fun _ => .ite (fun _ =>
      .ite (fun _ => ?_) fun _ => .ok (.refl _)) fun _ => .ok (.refl _)
    · exact (Yields.self _).bind fun _ _ => .ok ⟨rfl, rfl⟩
    · exact (Yields.self _).bind fun _ _ => .ok (.refl _)
  rw [sfsBmapTruncate]
  exact (Yields.self _).bind fun _ _ => hfree.bind fun x hx => .ok ⟨hx.type, hx.ino⟩

/-! ### Files -/

theorem ioPart_type (write : Bool) (blkno blkoff size : ℕ) (io : Io) :
    Yields (ioPart write blkno blkoff size io) fun io' => SameType io.sin io'.sin := by
  rw [ioPart]
  refine (sfsBmapLoad_type _ _ _).bind fun x hx => ?_
  obtain ⟨r, fs', sin'⟩ := x
  cases r with
  | error ret => exact .ok hx
  | ok ino => exact (Yields.self _).bind fun _ _ => .ok hx

theorem ioBlocks_type (write : Bool) (n blkno : ℕ) (io : Io) :
    Yields (ioBlocks write n blkno io) fun io' => SameType io.sin io'.sin := by
  induction n generalizing blkno io with
  | zero => exact .ok (.refl _)
  | succ n ih =>
    rw [ioBlocks]
    refine (sfsBmapLoad_type _ _ _).bind fun x hx => ?_
    obtain ⟨r, fs', sin'⟩ := x
    cases r with
    | error ret => exact .ok hx
    | ok ino => exact (Yields.self _).bind fun _ _ => (ih _ _).mono fun _ h => hx.trans h

theorem ioTransfer_type (write : Bool) (offset endpos : ℕ) (io : Io) :
    Yields (ioTransfer write offset endpos io) fun io' => SameType io.sin io'.sin := by
  have hfirst : ∀ {c : Prop} [Decidable c] {blkno blkoff size : ℕ},
      Yields (if c then ioPart write blkno blkoff size io else .ok io) fun io' => SameType io.sin io'.sin :=
    .ite (fun _ => ioPart_type _ _ _ _ _) fun _ => .ok (.refl _)
  rw [ioTransfer]
  refine hfirst.bind fun io₁ h₁ => .ite (fun _ => .ok h₁) fun _ => ?_
  refine (ioBlocks_type _ _ _ _).bind fun io₂ h₂ => ?_
  exact .ite (fun _ => .ok (h₁.trans h₂)) fun _ => .ite (fun _ =>
    (ioPart_type _ _ _ _ _).mono fun _ h₃ => (h₁.trans h₂).trans h₃) fun _ => .ok (h₁.trans h₂)

/-- **`sfs_io_nolock`** -/
theorem sfsIoNolock_type (fs : Fs) (sin : Inode) (buf : Mem) (offset : ℤ) (len : ℕ) (write : Bool) :
    Yields (sfsIoNolock fs sin buf offset len write) fun io => SameType sin io.sin := by
  have hout : ∀ {offset : ℕ} {io : Io}, SameType io.sin (ioOut offset io).sin := by
    intro offset io
    rw [ioOut]
    by_cases hsize : offset + io.alen > io.sin.din.size
    · rw [if_pos hsize]
      exact ⟨rfl, rfl⟩
    · rw [if_neg hsize]
      exact .refl _
  rw [sfsIoNolock]
  refine (Yields.self _).bind fun _ _ => .ite (fun _ => .ok (.refl _)) fun _ =>
    .ite (fun _ => .ok (.refl _)) fun _ => .ite (fun _ => .ok (.refl _)) fun _ => ?_
  exact (ioTransfer_type _ _ _ _).bind fun io h => .ok (h.trans hout)

theorem growLoop_type (n nblks : ℕ) (fs : Fs) (sin : Inode) :
    Yields (growLoop n nblks fs sin) fun x => SameType sin x.2.2 := by
  induction n generalizing nblks fs sin with
  | zero => exact .ok (.refl _)
  | succ n ih =>
    rw [growLoop]
    refine (sfsBmapLoad_type _ _ _).bind fun x hx => ?_
    obtain ⟨r, fs', sin'⟩ := x
    cases r with
    | error ret => exact .ok hx
    | ok ino => exact (ih _ _ _).mono fun _ h => hx.trans h

theorem shrinkLoop_type (n : ℕ) (fs : Fs) (sin : Inode) :
    Yields (shrinkLoop n fs sin) fun x => SameType sin x.2 := by
  induction n generalizing fs sin with
  | zero => exact .ok (.refl _)
  | succ n ih =>
    rw [shrinkLoop]
    exact (sfsBmapTruncate_type _ _).bind fun x hx => (ih _ _).mono fun _ h => hx.trans h

/-- **`sfs_truncfile`** -/
theorem sfsTruncfile_type (fs : Fs) (sin : Inode) (len : ℤ) :
    Yields (sfsTruncfile fs sin len) fun x => SameType sin x.2.2 := by
  have hresize : ∀ {c : Prop} [Decidable c] {n m k : ℕ}, Yields (if c then growLoop n m fs sin else
      (shrinkLoop k fs sin).map fun x => ((0 : ℤ), x.1, x.2)) fun x => SameType sin x.2.2 :=
    .ite (fun _ => growLoop_type _ _ _ _) fun _ => .map (shrinkLoop_type _ _ _)
  rw [sfsTruncfile]
  refine .ite (fun _ => .ok (.refl _)) fun _ => .ite (fun _ => ?_) fun _ => ?_
  · exact (Yields.self _).bind fun _ _ => .ok (.refl _)
  · refine hresize.bind fun x hx => .ite (fun _ => .ok hx) fun _ => ?_
    exact (Yields.self _).bind fun _ _ => .ok ⟨hx.type, hx.ino⟩

theorem sfsTryseek_type (fs : Fs) (sin : Inode) (pos : ℤ) :
    Yields (sfsTryseek fs sin pos) fun x => SameType sin x.2.2 := by
  rw [sfsTryseek]
  exact .ite (fun _ => .ok (.refl _)) fun _ => .ite (fun _ => sfsTruncfile_type _ _ _) fun _ => .ok (.refl _)

/-! ### Directories -/

theorem sfsDirentRead_type (fs : Fs) (sin : Inode) (i : ℕ) (entry : Mem) :
    Yields (sfsDirentRead fs sin i entry) fun x => SameType sin x.2.2.1 := by
  rw [sfsDirentRead]
  refine (Yields.self _).bind fun _ _ => (sfsBmapLoad_type _ _ _).bind fun x hx => ?_
  obtain ⟨r, fs', sin'⟩ := x
  cases r with
  | error ret => exact .ok hx
  | ok ino => exact (Yields.self _).bind fun _ _ => (Yields.self _).bind fun _ _ => .ok hx

theorem direntSearchLoop_type (name : List UInt8) (n i : ℕ) (fs : Fs) (sin : Inode) (entry : Mem)
    (slot : ℕ) : Yields (direntSearchLoop name n i fs sin entry slot) fun x => SameType sin x.2.2 := by
  induction n generalizing i fs sin entry slot with
  | zero => exact .ok (.refl _)
  | succ n ih =>
    rw [direntSearchLoop]
    refine (sfsDirentRead_type _ _ _ _).bind fun x hx => ?_
    have hloop : ∀ {i fs entry slot}, Yields (direntSearchLoop name n i fs x.2.2.1 entry slot) fun y =>
        SameType sin y.2.2 := (ih _ _ _ _ _).mono fun _ h => hx.trans h
    exact .ite (fun _ => .ok hx) fun _ => .ite (fun _ => hloop) fun _ =>
      .ite (fun _ => .ok hx) fun _ => hloop

/-- **`sfs_dirent_search_nolock`** -/
theorem sfsDirentSearch_type (fs : Fs) (sin : Inode) (name : List UInt8) (entry : Option Mem) :
    Yields (sfsDirentSearch fs sin name entry) fun x => SameType sin x.2.2 := by
  rw [sfsDirentSearch.eq_def]
  refine (Yields.self _).bind fun _ _ => ?_
  cases entry with
  | none => exact .ok (.refl _)
  | some entry => exact direntSearchLoop_type _ _ _ _ _ _ _

theorem sfsDirentFindino_type (fs : Fs) (sin : Inode) (ino : ℕ) (entry : Mem) :
    Yields (sfsDirentFindino fs sin ino entry) fun x => SameType sin x.2.2.1 := by
  have hloop : ∀ n i fs sin entry,
      Yields (direntFindinoLoop ino n i fs sin entry) fun x => SameType sin x.2.2.1 := by
    intro n
    induction n with
    | zero => exact fun _ _ _ _ => .ok (.refl _)
    | succ n ih =>
      intro i fs sin entry
      rw [direntFindinoLoop]
      exact (sfsDirentRead_type _ _ _ _).bind fun x hx => .ite (fun _ => .ok hx) fun _ =>
        .ite (fun _ => .ok hx) fun _ => (ih _ _ _ _).mono fun _ h => hx.trans h
  exact hloop _ _ _ _ _

/-- **`sfs_getdirentry`** -/
theorem sfsGetdirentry_type (fs : Fs) (sin : Inode) (d : Dirent) (entry : Option Mem) :
    Yields (sfsGetdirentry fs sin d entry) fun x => SameType sin x.2.2.1 := by
  have hloop : ∀ n i fs sin slot entry,
      Yields (getdirentrySubLoop n i fs sin slot entry) fun x => SameType sin x.2.2.1 := by
    intro n
    induction n with
    | zero => exact fun _ _ _ _ _ => .ok (.refl _)
    | succ n ih =>
      intro i fs sin slot entry
      rw [getdirentrySubLoop]
      refine (sfsDirentRead_type _ _ _ _).bind fun x hx => ?_
      have hrest : ∀ {slot}, Yields (getdirentrySubLoop n (i + 1) x.2.1 x.2.2.1 slot x.2.2.2) fun y =>
          SameType sin y.2.2.1 := (ih _ _ _ _ _).mono fun _ h => hx.trans h
      exact .ite (fun _ => .ok hx) fun _ => .ite (fun _ => .ite (fun _ => .ok hx) fun _ => hrest)
        fun _ => hrest
  rw [sfsGetdirentry.eq_def]
  cases entry with
  | none => exact .ok (.refl _)
  | some entry =>
    refine .ite (fun _ => .ok (.refl _)) fun _ => .ite (fun _ => .ok (.refl _)) fun _ => ?_
    exact (hloop _ _ _ _ _ _).bind fun x hx => .ite (fun _ => .ok hx) fun _ => .ok hx

end Ucore.Sfs
