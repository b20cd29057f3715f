import Ucore.Dtb.Model

/-!
# Discovery of the memory

A tree is written as a sequence of tokens, and each token as bytes: numbers are big-endian, names and
property values are padded to a multiple of four.  `extract_memory_info` stays in step with the tokens
(`extractLoop_tokens`).  Its flag is set in a node when the name of this node, or of an ancestor that is
reached over first children only, starts with `memory`, because only the end of a node clears the flag
(`walkTokens_tree`).

**`extractMemoryInfo_iff`**: the walk ends before or at `FDT_END`, and its result is that of the first memory
node exactly when the first node with a `reg` property and the flag is a memory node.
-/

namespace Ucore.Dtb

open CString Memory

/-! ### Tokens -/

/-- The tokens before `FDT_END`. -/
inductive Token
  | beginNode (name : List UInt8)
  | endNode
  /-- a property whose name is at `nameoff` in the strings block -/
  | prop (name : List UInt8) (nameoff : ℕ) (data : List UInt8)
  | nop

/-- Zeros up to a multiple of four. -/
def pad (bs : List UInt8) : List UInt8 := bs ++ List.replicate ((4 - bs.length % 4) % 4) 0

theorem length_pad (bs : List UInt8) : (pad bs).length = (bs.length + 3) / 4 * 4 := by
  rw [pad, List.length_append, List.length_replicate]
  omega

def Token.bytes : Token → List UInt8
  | .beginNode name => be32 FDT_BEGIN_NODE ++ pad (name ++ [0])
  | .endNode => be32 FDT_END_NODE
  | .prop _ nameoff data => be32 FDT_PROP ++ (be32 data.length ++ (be32 nameoff ++ pad data))
  | .nop => be32 FDT_NOP

/-- The structure block. -/
def blockBytes (ts : List Token) : List UInt8 := ts.flatMap Token.bytes ++ be32 FDT_END

@[simp] theorem blockBytes_cons (t : Token) (ts : List Token) :
    blockBytes (t :: ts) = t.bytes ++ blockBytes ts := by
  rw [blockBytes, List.flatMap_cons, List.append_assoc, blockBytes]

theorem four_le_length_blockBytes (ts : List Token) : 4 ≤ (blockBytes ts).length := by
  rw [blockBytes, List.length_append, length_be32]
  omega

/-- The name of a node and the value of a property have a length, and the name of a property is in the strings
block. -/
def Token.WellFormed (strings : List UInt8) : Token → Prop
  | .beginNode name => (∀ b ∈ name, b ≠ 0) ∧ name.length < 2 ^ 31
  | .prop name nameoff data => (∀ b ∈ name, b ≠ 0) ∧ nameoff < 2 ^ 32 ∧ data.length < 2 ^ 32 ∧
      nameoff ≤ strings.length ∧ name ++ [0] <+: strings.drop nameoff
  | _ => True

instance decidableWellFormed (strings : List UInt8) : ∀ t : Token, Decidable (t.WellFormed strings)
  | .beginNode name => inferInstanceAs (Decidable ((∀ b ∈ name, b ≠ 0) ∧ name.length < 2 ^ 31))
  | .prop name nameoff data => inferInstanceAs (Decidable ((∀ b ∈ name, b ≠ 0) ∧ nameoff < 2 ^ 32 ∧
      data.length < 2 ^ 32 ∧ nameoff ≤ strings.length ∧ name ++ [0] <+: strings.drop nameoff))
  | .endNode => isTrue trivial
  | .nop => isTrue trivial

/-- A `reg` property with room for a base and a size. -/
def isReg (name data : List UInt8) : Bool := name == regName && decide (16 ≤ data.length)

/-- The property at which the loop ends. -/
def walkTokens : List Token → Bool → Option (List UInt8)
  | [], _ => none
  | .beginNode name :: ts, inMemoryNode => walkTokens ts (memoryName.isPrefixOf name || inMemoryNode)
  | .endNode :: ts, _ => walkTokens ts false
  | .prop name _ data :: ts, inMemoryNode =>
    if inMemoryNode && isReg name data then some data else walkTokens ts inMemoryNode
  | .nop :: ts, inMemoryNode => walkTokens ts inMemoryNode

/-- The first base and size. -/
def regPair (data : List UInt8) : BitVec 64 × BitVec 64 :=
  (BitVec.ofNat 64 (beValue (data.take 8)), BitVec.ofNat 64 (beValue ((data.drop 8).take 8)))

/-- What `extract_memory_info` returns and stores for a `reg` property. -/
def found : Option (List UInt8) → Found
  | some data => (0, some (regPair data))
  | none => (-1, none)

variable {m : Mem} {p stringsBase bound turns : ℕ} {strings : List UInt8} {ts : List Token}

theorem nameLen_eq {len : ℕ} (h : len < 2 ^ 31) : nameLen len = len := by
  have hmod : len % 2 ^ 32 = len := Nat.mod_eq_of_lt (by omega)
  rw [nameLen, BitVec.toInt_eq_toNat_of_lt, BitVec.toNat_ofNat, hmod]
  rw [BitVec.toNat_ofNat, hmod]
  omega

/-- The pointer behind `bs`, which is padded. -/
theorem skip_eq {bs : List UInt8} {n : ℕ} (hp : 4 ∣ p) (hn : n = bs.length + 3)
    (hend : p + (pad bs).length + 4 ≤ 2 ^ 64) : skip p n = p + (pad bs).length := by
  rw [length_pad] at *
  rw [skip]
  omega

theorem isPrefixOf_memory {name : List UInt8} (h : StringAt m p name) :
    decide (strncmp m (literal memoryName) 6 p 0 = 0) = memoryName.isPrefixOf name := by
  have hlit : StringAt (literal memoryName) 0 memoryName := stringAt_literal (by decide)
  rw [Bool.eq_iff_iff, decide_eq_true_eq, strncmp_eq_zero_iff h hlit, List.isPrefixOf_iff_prefix]
  exact ⟨fun heq => List.prefix_iff_eq_take.2 heq.symm, fun hpre => (List.prefix_iff_eq_take.1 hpre).symm⟩

theorem load32_of_at {n : ℕ} {bs : List UInt8} (h : At m p (be32 n ++ bs)) (hn : n < 2 ^ 32) :
    (fdt32ToCpu (load32 m p)).toNat = n ∧ At m (p + 4) bs := by
  rw [at_append] at h
  exact ⟨fdt32ToCpu_of_at h.1 hn, h.2⟩

/-- The first base and size of a property value in memory. -/
theorem load_regPair {data : List UInt8} (h : At m p (pad data)) (hlen : 16 ≤ data.length) :
    (fdt64ToCpu (load64 m p), fdt64ToCpu (load64 m (p + 8))) = regPair data := by
  rw [pad, at_append] at h
  have h₀ : At m p (data.take 8) := h.1.part (List.take_prefix 8 _) (Nat.zero_le _)
  have h₁ : At m (p + 8) ((data.drop 8).take 8) := h.1.part (List.take_prefix 8 _) (by omega)
  rw [regPair, ← fdt64ToCpu_of_at h₀ (by rw [List.length_take]; omega),
    ← fdt64ToCpu_of_at h₁ (by rw [List.length_take, List.length_drop]; omega)]

/-- **The loop stays in step with the tokens.**  It takes one turn for each token, up to `FDT_END`. -/
theorem extractLoop_tokens (hblock : At m p (blockBytes ts)) (hp : 4 ∣ p)
    (hend : p + (blockBytes ts).length ≤ 2 ^ 64) (hstrings : At m stringsBase strings)
    (hwf : ∀ t ∈ ts, t.WellFormed strings) (hbound : (blockBytes ts).length ≤ bound)
    (hturns : ts.length < turns) (inMemoryNode : Bool) :
    extractLoop m stringsBase bound turns p inMemoryNode = some (found (walkTokens ts inMemoryNode)) := by
  induction ts generalizing p turns inMemoryNode with
  | nil =>
    obtain ⟨turns, rfl⟩ := Nat.exists_eq_add_one.2 hturns
    have htoken := fdt32ToCpu_of_at hblock (by decide)
    rw [extractLoop, htoken]
    rfl
  | cons t ts ih =>
    obtain ⟨turns, rfl⟩ := Nat.exists_eq_add_one.2 (Nat.zero_lt_of_lt hturns)
    have hturns' : ts.length < turns := Nat.lt_of_succ_lt_succ hturns
    have hwf' : ∀ t ∈ ts, t.WellFormed strings := fun t ht => hwf t (List.mem_cons_of_mem _ ht)
    have ht := hwf t List.mem_cons_self
    rw [blockBytes_cons] at hblock hend hbound
    rw [List.length_append] at hend hbound
    have hbound' : (blockBytes ts).length ≤ bound := by omega
    have hfour := four_le_length_blockBytes ts
    cases t with
    | beginNode name =>
      rw [Token.bytes, List.append_assoc] at hblock
      rw [Token.bytes, List.length_append, length_be32] at hend hbound
      obtain ⟨htoken, hblock⟩ := load32_of_at hblock (by decide)
      rw [at_append] at hblock
      obtain ⟨hpad, hrest⟩ := hblock
      have hname : StringAt m (p + 4) name := by
        rw [pad, at_append] at hpad
        exact ⟨hpad.1, ht.1⟩
      have hpadlen := length_pad (name ++ [0])
      rw [List.length_append, List.length_singleton] at hpadlen
      have hlen : strlen m bound (p + 4) = some name.length := strlen_eq hname (by omega)
      have hskip : skip (p + 4) (nameLen name.length + 4) = p + 4 + (pad (name ++ [0])).length := by
        rw [nameLen_eq ht.2]
        refine skip_eq (n := name.length + 4) (by omega) ?_ (by omega)
        rw [List.length_append, List.length_singleton]
      have hnext := ih hrest (by omega) (by omega) hwf' hbound' hturns'
        (memoryName.isPrefixOf name || inMemoryNode)
      rw [extractLoop, htoken]
      simp only [if_true, hlen, Option.bind_eq_bind, Option.bind_some, hskip, isPrefixOf_memory hname]
      exact hnext
    | endNode =>
      obtain ⟨htoken, hrest⟩ := load32_of_at hblock (by decide)
      rw [extractLoop, htoken]
      exact ih hrest (by omega) (by simp [Token.bytes] at hend; omega) hwf' hbound' hturns' false
    | prop name nameoff data =>
      obtain ⟨hzero, hoff, hdata, hle, hpre⟩ := ht
      rw [Token.bytes, List.append_assoc, List.append_assoc, List.append_assoc] at hblock
      simp only [Token.bytes, List.length_append, length_be32] at hend hbound
      obtain ⟨htoken, hblock⟩ := load32_of_at hblock (by decide)
      obtain ⟨hlen, hblock⟩ := load32_of_at hblock hdata
      obtain ⟨hnameoff, hblock⟩ := load32_of_at hblock hoff
      rw [at_append] at hblock
      obtain ⟨hpad, hrest⟩ := hblock
      have hname : StringAt m (stringsBase + nameoff) name := ⟨hstrings.part hpre hle, hzero⟩
      have hlit : StringAt (literal regName) 0 regName := stringAt_literal (by decide)
      have hlong : regName.length < bound := by
        rw [show regName.length = 3 from rfl]
        omega
      obtain ⟨r, hcmp, hr⟩ := strcmp_spec hname hlit hlong
      have hr' : (r == 0) = (name == regName) := by
        rw [Bool.eq_iff_iff, beq_iff_eq, beq_iff_eq]
        exact hr
      have hpadlen := length_pad data
      have hskip : skip (p + 4 + 8) (data.length + 3) = p + 4 + 8 + (pad data).length :=
        skip_eq (n := data.length + 3) (by omega) rfl (by omega)
      have hnext := ih hrest (by omega) (by omega) hwf' hbound' hturns' inMemoryNode
      rw [extractLoop, htoken]
      simp only [FDT_BEGIN_NODE, FDT_END_NODE, FDT_PROP, hlen, hnameoff, hcmp, hskip, hnext, walkTokens,
        isReg]
      cases inMemoryNode with
      | false => simp
      | true =>
        by_cases hreg : name = regName ∧ 16 ≤ data.length
        · have hpair := load_regPair hpad hreg.2
          simp [hr', hreg, hpair, found]
        · simp [hr', hreg]
    | nop =>
      obtain ⟨htoken, hrest⟩ := load32_of_at hblock (by decide)
      rw [extractLoop, htoken]
      exact ih hrest (by omega) (by simp [Token.bytes] at hend; omega) hwf' hbound' hturns' inMemoryNode

/-! ### Trees -/

/-- A property, with the `FDT_NOP` tokens before it. -/
structure Property where
  nops : ℕ
  name : List UInt8
  nameoff : ℕ
  data : List UInt8

/-- A sequence of sibling nodes.  The properties of a node stand before its children, and `FDT_NOP` tokens may
stand before a node, before a property and before the end of a node. -/
inductive Nodes
  | nil
  | cons (nops : ℕ) (name : List UInt8) (props : List Property) (children : Nodes) (endNops : ℕ)
      (rest : Nodes)

def Property.tokens (p : Property) : List Token :=
  List.replicate p.nops .nop ++ [.prop p.name p.nameoff p.data]

def Nodes.tokens : Nodes → List Token
  | .nil => []
  | .cons nops name props children endNops rest =>
    List.replicate nops .nop ++ .beginNode name :: (props.flatMap Property.tokens ++ (children.tokens ++
      (List.replicate endNops .nop ++ .endNode :: rest.tokens)))

/-- The value of the first `reg` property of a node. -/
def regOf (props : List Property) : Option (List UInt8) :=
  (props.find? fun p => isReg p.name p.data).map Property.data

/-- A node named `memory` or `memory@…`. -/
def isMemoryNode (name : List UInt8) : Bool :=
  name == memoryName || (memoryName ++ [0x40]).isPrefixOf name

/-- The `reg` property of the first memory node that has one. -/
def Nodes.memoryReg : Nodes → Option (List UInt8)
  | .nil => none
  | .cons _ name props children _ rest =>
    ((if isMemoryNode name then regOf props else none).or children.memoryReg).or rest.memoryReg

/-- A node as the walk comes to it: `chain` are the names of the node and of the ancestors that are reached
over first children only. -/
structure Visit where
  name : List UInt8
  chain : List (List UInt8)
  props : List Property

/-- The nodes in document order; `up` is the chain above the first of them. -/
def Nodes.visits (up : List (List UInt8)) : Nodes → List Visit
  | .nil => []
  | .cons _ name props children _ rest =>
    ⟨name, name :: up, props⟩ :: (children.visits (name :: up) ++ rest.visits [])

/-- The flag in a node. -/
def inMemory (chain : List (List UInt8)) : Bool := chain.any fun name => memoryName.isPrefixOf name

/-- The `reg` property of a node in which the flag is set. -/
def Visit.taken (v : Visit) : Option (List UInt8) := if inMemory v.chain then regOf v.props else none

/-- The flag behind a sequence of sibling nodes. -/
def Nodes.after (inMemoryNode : Bool) : Nodes → Bool
  | .nil => inMemoryNode
  | .cons .. => false

theorem walkTokens_nops (n : ℕ) (ts : List Token) (inMemoryNode : Bool) :
    walkTokens (List.replicate n .nop ++ ts) inMemoryNode = walkTokens ts inMemoryNode := by
  induction n with
  | zero => rfl
  | succ n ih => exact ih

theorem walkTokens_props (props : List Property) (ts : List Token) (inMemoryNode : Bool) :
    walkTokens (props.flatMap Property.tokens ++ ts) inMemoryNode =
      (if inMemoryNode then regOf props else none).or (walkTokens ts inMemoryNode) := by
  induction props with
  | nil => simp [regOf]
  | cons p props ih =>
    rw [List.flatMap_cons, Property.tokens, List.append_assoc, List.append_assoc, walkTokens_nops,
      List.singleton_append, walkTokens, ih]
    cases inMemoryNode with
    | false => rfl
    | true =>
      cases hreg : isReg p.name p.data with
      | false => simp [regOf, hreg]
      | true => simp [regOf, hreg]

/-- **The walk over a tree.**  The flag is the disjunction over the chain of a node. -/
theorem walkTokens_tree (t : Nodes) (up : List (List UInt8)) (ts : List Token) :
    walkTokens (t.tokens ++ ts) (inMemory up) =
      ((t.visits up).findSome? Visit.taken).or (walkTokens ts (t.after (inMemory up))) := by
  induction t generalizing up ts with
  | nil => rfl
  | cons nops name props children endNops rest ihc ihr =>
    have hchain : (memoryName.isPrefixOf name || inMemory up) = inMemory (name :: up) := rfl
    rw [Nodes.tokens, List.append_assoc, walkTokens_nops, List.cons_append, walkTokens, hchain,
      List.append_assoc, walkTokens_props, List.append_assoc, ihc, List.append_assoc, walkTokens_nops,
      List.cons_append, walkTokens]
    have hrest := ihr [] ts
    have hafter : rest.after (inMemory []) = false := by
      cases rest with
      | nil => rfl
      | cons => rfl
    rw [hafter] at hrest
    rw [show false = inMemory [] from rfl, hrest, Nodes.visits, List.findSome?_cons,
      List.findSome?_append, Nodes.after]
    have htaken : Visit.taken ⟨name, name :: up, props⟩ =
        if inMemory (name :: up) then regOf props else none := rfl
    rw [htaken]
    cases hreg : (if inMemory (name :: up) then regOf props else none) with
    | none => simp [Option.or_assoc]
    | some data => simp

/-! ### The result -/

/-- The `reg` property of a memory node. -/
def Visit.memoryReg (v : Visit) : Option (List UInt8) :=
  if isMemoryNode v.name then regOf v.props else none

theorem memoryReg_eq (t : Nodes) (up : List (List UInt8)) :
    t.memoryReg = (t.visits up).findSome? Visit.memoryReg := by
  induction t generalizing up with
  | nil => rfl
  | cons nops name props children endNops rest ihc ihr =>
    have hmem : Visit.memoryReg ⟨name, name :: up, props⟩ =
        if isMemoryNode name then regOf props else none := rfl
    rw [Nodes.memoryReg, Nodes.visits, List.findSome?_cons, List.findSome?_append, ← ihc, ← ihr, hmem]
    cases hreg : (if isMemoryNode name then regOf props else none) with
    | none => simp
    | some data => simp

theorem isPrefixOf_of_isMemoryNode {name : List UInt8} (h : isMemoryNode name = true) :
    memoryName.isPrefixOf name = true := by
  rw [isMemoryNode, Bool.or_eq_true, beq_iff_eq, List.isPrefixOf_iff_prefix] at h
  rw [List.isPrefixOf_iff_prefix]
  rcases h with rfl | h
  · exact List.prefix_rfl
  · exact (List.prefix_append memoryName [0x40]).trans h

/-- A chain starts with the name of the node. -/
theorem name_mem_chain {t : Nodes} {up : List (List UInt8)} {v : Visit} (hv : v ∈ t.visits up) :
    v.name ∈ v.chain := by
  induction t generalizing up with
  | nil => exact absurd hv List.not_mem_nil
  | cons nops name props children endNops rest ihc ihr =>
    rw [Nodes.visits, List.mem_cons, List.mem_append] at hv
    rcases hv with rfl | hv | hv
    · exact List.mem_cons_self
    · exact ihc hv
    · exact ihr hv

/-- In a memory node the flag is set. -/
theorem taken_of_memoryReg {t : Nodes} {up : List (List UInt8)} {v : Visit} (hv : v ∈ t.visits up)
    (h : isMemoryNode v.name = true) : v.taken = v.memoryReg := by
  have hin : inMemory v.chain = true :=
    List.any_eq_true.2 ⟨v.name, name_mem_chain hv, isPrefixOf_of_isMemoryNode h⟩
  rw [Visit.taken, Visit.memoryReg, if_pos hin, if_pos h]

theorem memoryReg_eq_none {t : Nodes} {up : List (List UInt8)} {v : Visit} (hv : v ∈ t.visits up)
    (h : v.taken = none) : v.memoryReg = none := by
  by_cases hmem : isMemoryNode v.name = true
  · rw [← taken_of_memoryReg hv hmem, h]
  · exact if_neg hmem

/-- The first node in document order with the flag and a `reg` property. -/
def Nodes.FirstTaken (t : Nodes) (v : Visit) (data : List UInt8) : Prop :=
  ∃ before after, t.visits [] = before ++ v :: after ∧ v.taken = some data ∧ ∀ u ∈ before, u.taken = none

theorem Nodes.FirstTaken.eq {t : Nodes} {v : Visit} {data : List UInt8} (h : t.FirstTaken v data) :
    (t.visits []).findSome? Visit.taken = some data := by
  obtain ⟨before, after, hsplit, hv, hbefore⟩ := h
  exact List.findSome?_eq_some_iff.2 ⟨before, v, after, hsplit, hv, hbefore⟩

/-- The first node with the flag is a memory node, or it has the same base and size as the first memory node. -/
def Nodes.Clear (t : Nodes) : Prop :=
  ∀ v data, t.FirstTaken v data →
    isMemoryNode v.name = true ∨ ∃ data', t.memoryReg = some data' ∧ regPair data' = regPair data

theorem found_some_eq {data : List UInt8} {o : Option (List UInt8)} :
    found (some data) = found o ↔ ∃ data', o = some data' ∧ regPair data' = regPair data := by
  cases o with
  | none => exact iff_of_false nofun fun ⟨_, hnone, _⟩ => nomatch hnone
  | some data' => simp [found, eq_comm]

theorem found_taken_iff (t : Nodes) :
    found ((t.visits []).findSome? Visit.taken) = found t.memoryReg ↔ t.Clear := by
  cases hcode : (t.visits []).findSome? Visit.taken with
  | none =>
    have hnone := List.findSome?_eq_none_iff.1 hcode
    have hreg : t.memoryReg = none := by
      rw [memoryReg_eq t [], List.findSome?_eq_none_iff]
      exact fun v hv => memoryReg_eq_none hv (hnone v hv)
    rw [hreg]
    refine iff_of_true rfl fun v data hfirst => ?_
    exact nomatch hcode.symm.trans hfirst.eq
  | some data =>
    obtain ⟨before, v, after, hsplit, hv, hbefore⟩ := List.findSome?_eq_some_iff.1 hcode
    rw [found_some_eq]
    constructor
    · intro hdata u data' hfirst
      obtain rfl := Option.some.inj (hcode.symm.trans hfirst.eq)
      exact Or.inr hdata
    · intro hclear
      rcases hclear v data ⟨before, after, hsplit, hv, hbefore⟩ with hmem | h
      · refine ⟨data, ?_, rfl⟩
        rw [memoryReg_eq t [], List.findSome?_eq_some_iff]
        have hmemv : v ∈ t.visits [] := by simp [hsplit]
        refine ⟨before, v, after, hsplit, ?_, fun u hu => ?_⟩
        · rw [← taken_of_memoryReg hmemv hmem, hv]
        · have hmemu : u ∈ t.visits [] := by simp [hsplit, hu]
          exact memoryReg_eq_none hmemu (hbefore u hu)
      · exact h

/-- A flattened device tree: the two offsets of its header that are read, the nodes of the structure block, the
`FDT_NOP` tokens before `FDT_END`, and the strings block. -/
structure Fdt where
  structOffset : ℕ
  stringsOffset : ℕ
  root : Nodes
  endNops : ℕ
  strings : List UInt8

def Fdt.tokens (t : Fdt) : List Token := t.root.tokens ++ List.replicate t.endNops .nop

/-- The tree stands at `dtbVaddr`. -/
structure Fdt.InMemory (t : Fdt) (m : Mem) (dtbVaddr : ℕ) : Prop where
  structOffset_lt : t.structOffset < 2 ^ 32
  stringsOffset_lt : t.stringsOffset < 2 ^ 32
  header : At m (dtbVaddr + 8) (be32 t.structOffset ++ be32 t.stringsOffset)
  aligned : 4 ∣ dtbVaddr + t.structOffset
  block : At m (dtbVaddr + t.structOffset) (blockBytes t.tokens)
  fits : dtbVaddr + t.structOffset + (blockBytes t.tokens).length ≤ 2 ^ 64
  strings : At m (dtbVaddr + t.stringsOffset) t.strings
  wellFormed : ∀ tok ∈ t.tokens, tok.WellFormed t.strings

/-- `extract_memory_info` takes at most one turn for each token, `FDT_END` included. -/
theorem extractMemoryInfo_eq {t : Fdt} {m : Mem} {dtbVaddr turns bound : ℕ} (h : t.InMemory m dtbVaddr)
    (hturns : t.tokens.length < turns) (hbound : (blockBytes t.tokens).length ≤ bound) :
    extractMemoryInfo m dtbVaddr turns bound =
      some (found ((t.root.visits []).findSome? Visit.taken)) := by
  obtain ⟨hstruct, hheader⟩ := load32_of_at h.header h.structOffset_lt
  have hstrings := fdt32ToCpu_of_at hheader h.stringsOffset_lt
  have hnops := walkTokens_nops t.endNops [] (t.root.after (inMemory []))
  rw [List.append_nil] at hnops
  rw [extractMemoryInfo, hstruct, show dtbVaddr + 12 = dtbVaddr + 8 + 4 from rfl, hstrings]
  show extractLoop m (dtbVaddr + t.stringsOffset) bound turns (dtbVaddr + t.structOffset) (inMemory []) = _
  rw [extractLoop_tokens h.block h.aligned h.fits h.strings h.wellFormed hbound hturns, Fdt.tokens,
    walkTokens_tree, hnops, walkTokens, Option.or_none]

/-- **Discovery of the memory.**  On every well-formed tree the walk ends with `FDT_END` or before, whatever
stands in memory outside of the tree.  It finds the base and the size of the first memory node with a `reg`
property, or that there is none, if and only if the first node with a `reg` property in which the flag is set is
a memory node, or has the same base and size. -/
theorem extractMemoryInfo_iff (t : Fdt) (m : Mem) (dtbVaddr : ℕ) (h : t.InMemory m dtbVaddr) :
    ∃ r, (∀ turns bound, t.tokens.length < turns → (blockBytes t.tokens).length ≤ bound →
        extractMemoryInfo m dtbVaddr turns bound = some r) ∧
      (r = found t.root.memoryReg ↔ t.root.Clear) :=
  ⟨_, fun _ _ hturns hbound => extractMemoryInfo_eq h hturns hbound, found_taken_iff t.root⟩

/-- A `reg` property, whose name is the first one of the strings block. -/
def regProperty (base size : ℕ) : Property :=
  ⟨0, regName, 0, be32 0 ++ be32 base ++ be32 0 ++ be32 size⟩

/-- A root with a node `memory-controller@1` and a node `memory@80000000`. -/
def controllerTree : Fdt where
  structOffset := 16
  stringsOffset := 140
  root := .cons 0 [] []
    (.cons 0 [0x6d, 0x65, 0x6d, 0x6f, 0x72, 0x79, 0x2d, 0x63, 0x6f, 0x6e, 0x74, 0x72, 0x6f, 0x6c, 0x6c, 0x65, 0x72, 0x40, 0x31]
      [regProperty 0x1000 0x100] .nil 0
    (.cons 0 [0x6d, 0x65, 0x6d, 0x6f, 0x72, 0x79, 0x40, 0x38, 0x30, 0x30, 0x30, 0x30, 0x30, 0x30, 0x30]
      [regProperty 0x80000000 0x8000000] .nil 0 .nil)) 0 .nil
  endNops := 0
  strings := regName ++ [0]

/-- The header, the structure block and the strings block. -/
def controllerMem : Mem :=
  literal (List.replicate 8 0 ++ be32 16 ++ be32 140 ++ blockBytes controllerTree.tokens ++ regName)

theorem controllerTree_inMemory : controllerTree.InMemory controllerMem 0 where
  structOffset_lt := by decide
  stringsOffset_lt := by decide
  header := by decide +kernel
  aligned := by decide
  block := by decide +kernel
  fits := by decide +kernel
  strings := by decide +kernel
  wellFormed := by decide +kernel

/-- The tree with the memory controller. -/
theorem extractMemoryInfo_iff_controller :
    controllerTree.InMemory controllerMem 0 ∧
      ∃ r, (∀ turns bound, controllerTree.tokens.length < turns →
          (blockBytes controllerTree.tokens).length ≤ bound →
          extractMemoryInfo controllerMem 0 turns bound = some r) ∧
        (r = found controllerTree.root.memoryReg ↔ controllerTree.root.Clear) :=
  ⟨controllerTree_inMemory, extractMemoryInfo_iff controllerTree controllerMem 0 controllerTree_inMemory⟩

/-- The registers of the memory controller are taken for the memory. -/
theorem extractMemoryInfo_controller :
    controllerTree.InMemory controllerMem 0 ∧
      extractMemoryInfo controllerMem 0 20 200 = some (0, some (0x1000, 0x100)) ∧
      found controllerTree.root.memoryReg = (0, some (0x80000000, 0x8000000)) :=
  ⟨controllerTree_inMemory, by decide +kernel, by decide +kernel⟩

end Ucore.Dtb
