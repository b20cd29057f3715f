import Ucore.Shell.Model

/-!
# Words and redirections

A command line without double quotes is a sequence of words and redirections with white space between them.
`shell` is the meaning of such a line: every redirection opens the word behind it, and the other words are the
arguments.

`gettoken` ends a word when it is called for the next token.  The arguments are used after the last token, when
all of them are ended; the word of a redirection is used at once, and then it reaches to the end of the line
(`runcmdLoop_eq`).

**`runcmd_iff`**: the shell opens the right file exactly when the word of the first redirection ends the line.
-/

namespace Ucore.Shell

open CString Memory

/-! ### Command lines -/

inductive Dir
  | input
  | output
  deriving DecidableEq, Repr

def Dir.char : Dir → UInt8
  | .input => 0x3c
  | .output => 0x3e

/-- The descriptor that is opened again. -/
def Dir.fd : Dir → ℤ
  | .input => 0
  | .output => 1

def Dir.flags : Dir → ℕ
  | .input => O_RDONLY
  | .output => O_RDWR + O_TRUNC + O_CREAT

/-- What is printed when no word follows. -/
def Dir.message : Dir → String
  | .input => "sh error: syntax error: < not followed by word\n"
  | .output => "sh error: syntax error: > not followed by word\n"

inductive Tok
  | word (w : List UInt8)
  | redirect (d : Dir)

def Tok.text : Tok → List UInt8
  | .word w => w
  | .redirect d => [d.char]

def Tok.isWord : Tok → Bool
  | .word _ => true
  | .redirect _ => false

/-- A token with the white space before it. -/
structure Item where
  lead : List UInt8
  tok : Tok

/-- The characters of a line that ends with the white space `trail`. -/
def lineText (trail : List UInt8) : List Item → List UInt8
  | [] => trail
  | i :: is => i.lead ++ (i.tok.text ++ lineText trail is)

/-- A character of a word. -/
def Plain (c : UInt8) : Prop := c ≠ 0 ∧ c ≠ 0x22 ∧ (WHITESPACE ++ SYMBOLS).contains c = false

/-- Sequences of white space. -/
def White (cs : List UInt8) : Prop := ∀ c ∈ cs, WHITESPACE.contains c = true

def Tok.WellFormed : Tok → Prop
  | .word w => w ≠ [] ∧ ∀ c ∈ w, Plain c
  | .redirect _ => True

/-- Words are not empty, and between two words there is white space; `prev` is for a word before the line. -/
def WellFormed (prev : Bool) : List Item → Prop
  | [] => True
  | i :: is => White i.lead ∧ i.tok.WellFormed ∧ (prev = true → i.tok.isWord = true → i.lead ≠ []) ∧
      WellFormed i.tok.isWord is

instance decidablePlain (c : UInt8) : Decidable (Plain c) :=
  inferInstanceAs (Decidable (c ≠ 0 ∧ c ≠ 0x22 ∧ (WHITESPACE ++ SYMBOLS).contains c = false))

instance decidableWhite (cs : List UInt8) : Decidable (White cs) :=
  List.decidableBAll (fun c => WHITESPACE.contains c = true) cs

instance decidableTok : ∀ t : Tok, Decidable t.WellFormed
  | .word w => @instDecidableAnd (w ≠ []) (∀ c ∈ w, Plain c) _ (List.decidableBAll Plain w)
  | .redirect _ => isTrue trivial

instance decidableLine : ∀ (prev : Bool) (is : List Item), Decidable (WellFormed prev is)
  | _, [] => isTrue trivial
  | prev, i :: is => @instDecidableAnd (White i.lead) _ _ (@instDecidableAnd i.tok.WellFormed _ _
      (@instDecidableAnd (prev = true → i.tok.isWord = true → i.lead ≠ []) _ _ (decidableLine i.tok.isWord is)))

/-- The meaning of a line, for the arguments `argv` before it.  `name` is what is passed to `reopen` for a word
and the items behind it. -/
def shell (env : Env) (name : List UInt8 → List Item → List UInt8) :
    List (List UInt8) → List Event → List Item → Result
  | argv, h, [] => runit env h argv
  | argv, h, ⟨_, .word w⟩ :: is =>
    if argv.length = EXEC_MAX_ARG_NUM then (h ++ [.print "sh error: too many arguments\n"], -1)
    else shell env name (argv ++ [w]) h is
  | argv, h, ⟨_, .redirect d⟩ :: ⟨_, .word w⟩ :: is =>
    let r := reopen env h d.fd (name w is) d.flags
    if r.2 ≠ 0 then r else shell env name argv r.1 is
  | _, h, ⟨_, .redirect d⟩ :: _ => (h ++ [.print d.message], -1)

/-- The word itself is passed to `reopen`. -/
def wordOnly (w : List UInt8) (_ : List Item) : List UInt8 := w

/-- The word and the rest of the line are passed to `reopen`. -/
def wordAndRest (trail w : List UInt8) (is : List Item) : List UInt8 := w ++ lineText trail is

variable {m : Mem} {p k bound turns t : ℕ} {cmd : Option ℕ} {lead rest trail w : List UInt8} {c : UInt8}
  {is : List Item} {prev : Bool} {d : Dir}

theorem plain_of_delimiter {c : UInt8} (h : Plain c) : WHITESPACE.contains c = false ∧ SYMBOLS.contains c = false := by
  have hc := h.2.2
  rw [List.contains_eq_mem, decide_eq_false_iff_not, List.mem_append, not_or] at hc
  exact ⟨by simpa using hc.1, by simpa using hc.2⟩

theorem white_ne_zero (h : White rest) (hc : c ∈ rest) : c ≠ 0 := by
  rintro rfl
  exact absurd (h 0 hc) (by decide)

/-- A line contains no zero. -/
theorem lineText_ne_zero (h : WellFormed prev is) (htrail : White trail) :
    ∀ c ∈ lineText trail is, c ≠ 0 := by
  induction is generalizing prev with
  | nil => exact fun c hc => white_ne_zero htrail hc
  | cons i is ih =>
    obtain ⟨hlead, htok, -, his⟩ := h
    intro c hc
    rw [lineText, List.mem_append, List.mem_append] at hc
    rcases hc with hc | hc | hc
    · exact white_ne_zero hlead hc
    · cases htok' : i.tok with
      | word w =>
        rw [htok'] at hc htok
        exact (htok.2 c hc).1
      | redirect d =>
        rw [htok'] at hc
        obtain rfl := List.mem_singleton.1 hc
        cases d <;> decide
    · exact ih his c hc

/-- What follows a word is empty or starts with a character that ends the word. -/
theorem lineText_delimiter (h : WellFormed true is) (htrail : White trail) :
    lineText trail is = [] ∨
      ∃ c cs, lineText trail is = c :: cs ∧ (WHITESPACE ++ SYMBOLS).contains c = true := by
  have hwhite : ∀ cs rest, White cs → cs ≠ [] →
      ∃ c cs', cs ++ rest = c :: cs' ∧ (WHITESPACE ++ SYMBOLS).contains c = true := by
    intro cs rest hcs hne
    obtain ⟨c, cs, rfl⟩ := List.exists_cons_of_ne_nil hne
    refine ⟨c, cs ++ rest, rfl, ?_⟩
    have hc := hcs c List.mem_cons_self
    rw [List.contains_eq_mem, decide_eq_true_eq] at hc ⊢
    exact List.mem_append_left _ hc
  cases is with
  | nil =>
    by_cases hne : trail = []
    · exact Or.inl hne
    · obtain ⟨c, cs, heq, hc⟩ := hwhite trail [] htrail hne
      rw [List.append_nil] at heq
      exact Or.inr ⟨c, cs, heq, hc⟩
  | cons i is =>
    right
    obtain ⟨hlead, -, hprev, -⟩ := h
    by_cases hne : i.lead = []
    · cases htok : i.tok with
      | word w => exact absurd hne (hprev rfl (by rw [htok]; rfl))
      | redirect d =>
        rw [lineText, hne, htok]
        refine ⟨d.char, lineText trail is, rfl, ?_⟩
        cases d <;> decide
    · exact hwhite i.lead _ hlead hne

/-! ### `gettoken` -/

/-- The rest of the line is at `p`, and `cmd` points to it unless it is empty. -/
structure Ready (m : Mem) (p : ℕ) (cmd : Option ℕ) (rest : List UInt8) : Prop where
  bytes : At m p (rest ++ [0])
  pointer : cmd = some p ∨ cmd = none ∧ rest = []

/-- `*p1` after a token. -/
theorem ready_of_bytes (h : At m p (rest ++ [0])) (hrest : ∀ c ∈ rest, c ≠ 0) :
    Ready m p (if m p ≠ 0 then some p else none) rest := by
  refine ⟨h, ?_⟩
  cases rest with
  | nil =>
    rw [if_neg (not_not_intro h.1)]
    exact Or.inr ⟨rfl, rfl⟩
  | cons c rest =>
    have hc : m p ≠ 0 := by
      rw [h.1]
      exact hrest c List.mem_cons_self
    rw [if_pos hc]
    exact Or.inl rfl

theorem memset_zero (m : Mem) (p : ℕ) (b : UInt8) : memset m p b 0 = m := by
  funext i
  exact memset_of_not (by omega)

theorem memset_succ (m : Mem) (p k : ℕ) (b : UInt8) :
    memset (Function.update m p b) (p + 1) b k = memset m p b (k + 1) := by
  funext i
  simp only [memset]
  by_cases hi : i = p
  · subst hi
    rw [if_neg (by omega), if_pos (by omega), Function.update_self]
  · rw [Function.update_of_ne hi]
    exact if_congr (by omega) rfl rfl

theorem update_memset (m : Mem) (p k : ℕ) (b : UInt8) :
    Function.update (memset m p b k) (p + k) b = memset m p b (k + 1) := by
  funext i
  simp only [memset]
  by_cases hi : i = p + k
  · subst hi
    rw [if_pos (by omega), Function.update_self]
  · rw [Function.update_of_ne hi]
    exact if_congr (by omega) rfl rfl

/-- The white space is overwritten. -/
theorem skipWhite_eq (h : At m p (lead ++ c :: rest)) (hlead : White lead)
    (hc : WHITESPACE.contains c = false) (hb : lead.length < bound) :
    skipWhite m bound p = some (memset m p 0 lead.length, p + lead.length) := by
  induction lead generalizing m p bound with
  | nil =>
    obtain ⟨bound, rfl⟩ := Nat.exists_eq_add_one.2 hb
    rw [skipWhite, h.1, if_neg (by rw [hc]; exact Bool.false_ne_true), List.length_nil, memset_zero,
      Nat.add_zero]
  | cons b lead ih =>
    obtain ⟨bound, rfl⟩ := Nat.exists_eq_add_one.2 (Nat.zero_lt_of_lt hb)
    have hnext : At (Function.update m p 0) (p + 1) (lead ++ c :: rest) :=
      h.2.congr fun i hi _ => Function.update_of_ne (by omega) _ _
    rw [skipWhite, h.1, if_pos (hlead b List.mem_cons_self),
      ih hnext (fun x hx => hlead x (List.mem_cons_of_mem b hx)) (Nat.lt_of_succ_lt_succ hb), memset_succ,
      List.length_cons, Nat.add_right_comm, Nat.add_assoc]

/-- A word without double quotes is not changed. -/
theorem scanWord_eq (h : At m p (w ++ c :: rest)) (hw : ∀ b ∈ w, Plain b)
    (hc : c = 0 ∨ (WHITESPACE ++ SYMBOLS).contains c = true) (hb : w.length < bound) :
    scanWord m bound p false = some (m, p + w.length) := by
  induction w generalizing p bound with
  | nil =>
    obtain ⟨bound, rfl⟩ := Nat.exists_eq_add_one.2 hb
    have hstop : ¬ (m p ≠ 0 ∧ (false = true ∨ ¬ (WHITESPACE ++ SYMBOLS).contains (m p) = true)) := by
      rw [h.1]
      rintro ⟨hne, hfalse | hno⟩
      · exact absurd hfalse Bool.false_ne_true
      · exact hc.elim hne hno
    rw [scanWord, if_neg hstop, List.length_nil, Nat.add_zero]
  | cons b w ih =>
    obtain ⟨bound, rfl⟩ := Nat.exists_eq_add_one.2 (Nat.zero_lt_of_lt hb)
    obtain ⟨hne, hquote, hplain⟩ := hw b List.mem_cons_self
    have hgo : b ≠ 0 ∧ (false = true ∨ ¬ (WHITESPACE ++ SYMBOLS).contains b = true) :=
      ⟨hne, Or.inr (by rw [hplain]; exact Bool.false_ne_true)⟩
    rw [scanWord, h.1, if_pos hgo, if_neg hquote,
      ih h.2 (fun x hx => hw x (List.mem_cons_of_mem b hx)) (Nat.lt_of_succ_lt_succ hb), List.length_cons,
      Nat.add_right_comm, Nat.add_assoc]

/-- At the end of the line. -/
theorem gettoken_end (h : Ready m p cmd trail) (htrail : White trail) (hb : trail.length < bound) :
    ∃ cmd', gettoken bound m cmd t = some ⟨0, memset m p 0 trail.length, cmd', t⟩ := by
  rcases h.pointer with rfl | ⟨rfl, rfl⟩
  · have hzero : memset m p 0 trail.length (p + trail.length) = 0 := by
      rw [memset_of_not (by omega)]
      exact (at_append.1 h.bytes).2.1
    refine ⟨some p, ?_⟩
    rw [gettoken, skipWhite_eq h.bytes htrail (by decide) hb]
    exact if_pos hzero
  · refine ⟨none, ?_⟩
    rw [List.length_nil, memset_zero]
    rfl

theorem Ready.pointer_eq (h : Ready m p cmd rest) (hne : rest ≠ []) : cmd = some p :=
  h.pointer.resolve_right fun hnone => hne hnone.2

/-- In front of a redirection. -/
theorem gettoken_redirect (h : Ready m p cmd (lead ++ d.char :: rest)) (hlead : White lead)
    (hrest : ∀ c ∈ rest, c ≠ 0) (hb : lead.length < bound) :
    ∃ cmd', gettoken bound m cmd t =
        some ⟨d.char, memset m p 0 (lead.length + 1), cmd', p + lead.length⟩ ∧
      Ready (memset m p 0 (lead.length + 1)) (p + lead.length + 1) cmd' rest := by
  obtain rfl := h.pointer_eq (by simp)
  have hbytes := h.bytes
  rw [List.append_assoc, List.cons_append] at hbytes
  have hwhite : WHITESPACE.contains d.char = false := by cases d <;> rfl
  have hsymbol : SYMBOLS.contains d.char = true := by cases d <;> rfl
  have hne : d.char ≠ 0 := by cases d <;> decide
  have hchar : memset m p 0 lead.length (p + lead.length) = d.char := by
    rw [memset_of_not (by omega)]
    exact (at_append.1 hbytes).2.1
  have hready := ready_of_bytes (((at_append.1 hbytes).2.2).memset_of_le p (lead.length + 1) 0
    (Or.inl (by omega))) hrest
  refine ⟨_, ?_, hready⟩
  rw [gettoken, skipWhite_eq hbytes hlead hwhite hb]
  show (if memset m p 0 lead.length (p + lead.length) = 0 then _ else if _ then _ else _) = _
  rw [hchar, if_neg hne, if_pos hsymbol, update_memset]

/-- In front of a word. -/
theorem gettoken_word (h : Ready m p cmd (lead ++ (w ++ rest))) (hlead : White lead) (hne : w ≠ [])
    (hw : ∀ b ∈ w, Plain b) (hrest : ∀ c ∈ rest, c ≠ 0)
    (hdelim : rest = [] ∨ ∃ c cs, rest = c :: cs ∧ (WHITESPACE ++ SYMBOLS).contains c = true)
    (hb : lead.length + w.length < bound) :
    ∃ cmd', gettoken bound m cmd t =
        some ⟨0x77, memset m p 0 lead.length, cmd', p + lead.length⟩ ∧
      Ready (memset m p 0 lead.length) (p + lead.length + w.length) cmd' rest := by
  obtain rfl := h.pointer_eq (by simp [hne])
  have hbytes := h.bytes
  rw [List.append_assoc, List.append_assoc] at hbytes
  have hafter := (at_append.1 hbytes).2.memset_of_le p lead.length 0 (Or.inl (by omega))
  have hready := ready_of_bytes (at_append.1 hafter).2 hrest
  refine ⟨_, ?_, hready⟩
  obtain ⟨b, w, rfl⟩ := List.exists_cons_of_ne_nil hne
  have hplain := hw b List.mem_cons_self
  obtain ⟨hwhite, hsymbol⟩ := plain_of_delimiter hplain
  have hchar : memset m p 0 lead.length (p + lead.length) = b := hafter.1
  -- the scan stops at the delimiter, or at the zero behind the line
  have hscan : scanWord (memset m p 0 lead.length) bound (p + lead.length) false =
      some (memset m p 0 lead.length, p + lead.length + (b :: w).length) := by
    rcases hdelim with rfl | ⟨c, cs, rfl, hc⟩
    · exact scanWord_eq hafter hw (Or.inl rfl) (by omega)
    · exact scanWord_eq hafter hw (Or.inr hc) (by omega)
  rw [gettoken, skipWhite_eq hbytes hlead hwhite (by omega)]
  show (if memset m p 0 lead.length (p + lead.length) = 0 then _ else if _ then _ else _) = _
  rw [hchar, if_neg hplain.1, hsymbol, if_neg Bool.false_ne_true, hscan]
  rfl

/-! ### Arguments -/

/-- The words to which the pointers of `argv` lead.  All of them are ended, but the last one when it ends at
`p`, which is the case after a word (`prev`). -/
def Args (m : Mem) (p bound : ℕ) (prev : Bool) (args : List (ℕ × List UInt8)) : Prop :=
  ∀ arg ∈ args, arg.1 + arg.2.length ≤ p ∧ arg.2.length < bound ∧ At m arg.1 arg.2 ∧
    (∀ b ∈ arg.2, b ≠ 0) ∧
    (m (arg.1 + arg.2.length) = 0 ∨ prev = true ∧ arg.1 + arg.2.length = p)

variable {args : List (ℕ × List UInt8)} {p' : ℕ} {prev' : Bool}

/-- A zero at `p` ends the last word. -/
theorem Args.memset (h : Args m p bound prev args) (hprev : prev = true → 0 < k ∨ m p = 0) (hle : p ≤ p') :
    Args (memset m p 0 k) p' bound false args := by
  intro arg harg
  obtain ⟨hend, hlen, hat, hne, hzero⟩ := h arg harg
  refine ⟨Nat.le_trans hend hle, hlen, hat.memset_of_le p k 0 (Or.inr hend), hne, Or.inl ?_⟩
  by_cases hin : p ≤ arg.1 + arg.2.length ∧ arg.1 + arg.2.length < p + k
  · exact if_pos hin
  · rw [memset_of_not hin]
    rcases hzero with hzero | ⟨htrue, heq⟩
    · exact hzero
    · rw [heq] at hin ⊢
      exact (hprev htrue).resolve_left fun hpos => hin (by omega)

theorem Args.mono (h : Args m p bound false args) : Args m p bound prev args := by
  intro arg harg
  obtain ⟨hend, hlen, hat, hne, hzero⟩ := h arg harg
  exact ⟨hend, hlen, hat, hne, hzero.imp_right fun hand => absurd hand.1 Bool.false_ne_true⟩

theorem Args.append (h : Args m p bound true args) {a : ℕ} (hat : At m a w) (hne : ∀ b ∈ w, b ≠ 0)
    (hlen : w.length < bound) (hend : a + w.length = p) : Args m p bound true (args ++ [(a, w)]) := by
  intro arg harg
  rcases List.mem_append.1 harg with harg | harg
  · exact h arg harg
  · obtain rfl := List.mem_singleton.1 harg
    exact ⟨Nat.le_of_eq hend, hlen, hat, hne, Or.inr ⟨rfl, hend⟩⟩

theorem Args.stringAt (h : Args m p bound false args) : ∀ arg ∈ args, StringAt m arg.1 arg.2 := by
  intro arg harg
  obtain ⟨-, -, hat, hne, hzero⟩ := h arg harg
  refine ⟨at_append.2 ⟨hat, hzero.resolve_right fun hand => absurd hand.1 Bool.false_ne_true, trivial⟩, hne⟩

/-- The strings of `argv` are the words. -/
theorem argStrings_eq (h : ∀ arg ∈ args, StringAt m arg.1 arg.2 ∧ arg.2.length < bound) :
    argStrings m bound (args.map Prod.fst) = some (args.map Prod.snd) := by
  induction args with
  | nil => rfl
  | cons arg args ih =>
    obtain ⟨hstring, hlen⟩ := h arg List.mem_cons_self
    have hih := ih fun x hx => h x (List.mem_cons_of_mem arg hx)
    rw [argStrings] at hih
    rw [argStrings, List.map_cons, List.mapM_cons, stringAt_eq hstring hlen, hih]
    rfl

theorem Args.argStrings (h : Args m p bound false args) :
    Shell.argStrings m bound (args.map Prod.fst) = some (args.map Prod.snd) :=
  argStrings_eq fun arg harg => ⟨h.stringAt arg harg, (h arg harg).2.1⟩

/-! ### The loop of `runcmd` -/

variable {env : Env} {pipes : ℤ × ℤ} {h : List Event}

/-- The end of the line. -/
theorem runcmdLoop_end (hready : Ready m p cmd trail) (htrail : White trail) (hargs : Args m p bound prev args)
    (hb : trail.length < bound) (hturns : 0 < turns) :
    runcmdLoop env pipes bound turns m cmd t (args.map Prod.fst) h =
      some (runit env h (args.map Prod.snd)) := by
  obtain ⟨turns, rfl⟩ := Nat.exists_eq_add_one.2 hturns
  obtain ⟨cmd', hget⟩ := gettoken_end (t := t) hready htrail hb
  have hstrings : argStrings (memset m p 0 trail.length) bound (args.map Prod.fst) =
      some (args.map Prod.snd) := by
    refine (hargs.memset (k := trail.length) (fun _ => ?_) (Nat.le_refl p)).argStrings
    cases trail with
    | nil => exact Or.inr hready.bytes.1
    | cons c trail => exact Or.inl (Nat.zero_lt_succ _)
  rw [runcmdLoop, hget]
  show (argStrings (memset m p 0 trail.length) bound (args.map Prod.fst)).map (runit env h) = _
  rw [hstrings]
  rfl

theorem length_lineText_cons (trail : List UInt8) (i : Item) (is : List Item) :
    (lineText trail (i :: is)).length = i.lead.length + i.tok.text.length + (lineText trail is).length := by
  rw [lineText, List.length_append, List.length_append, Nat.add_assoc]

variable (turns t env pipes h) in
/-- A word becomes an argument. -/
theorem runcmdLoop_word (hready : Ready m p cmd (lineText trail (⟨lead, .word w⟩ :: is)))
    (hwf : WellFormed prev (⟨lead, .word w⟩ :: is)) (htrail : White trail)
    (hargs : Args m p bound prev args)
    (hb : (lineText trail (⟨lead, .word w⟩ :: is)).length < bound) :
    ∃ m' p' cmd' t', Ready m' p' cmd' (lineText trail is) ∧
      Args m' p' bound true (args ++ [(t', w)]) ∧
      runcmdLoop env pipes bound (turns + 1) m cmd t (args.map Prod.fst) h =
        if args.length = EXEC_MAX_ARG_NUM then some (h ++ [.print "sh error: too many arguments\n"], -1)
        else runcmdLoop env pipes bound turns m' cmd' t' ((args ++ [(t', w)]).map Prod.fst) h := by
  obtain ⟨hlead, ⟨hne, hw⟩, hprev, his⟩ := hwf
  have hrest := lineText_ne_zero his htrail
  have hlen : lead.length + w.length < bound := by
    rw [length_lineText_cons] at hb
    exact Nat.lt_of_le_of_lt (Nat.le_add_right _ _) hb
  obtain ⟨cmd', hget, hready'⟩ := gettoken_word (t := t) hready hlead hne hw hrest
    (lineText_delimiter his htrail) hlen
  have hword : At (memset m p 0 lead.length) (p + lead.length) w := by
    have hbytes := hready.bytes
    rw [lineText, List.append_assoc, List.append_assoc] at hbytes
    exact (at_append.1 (at_append.1 hbytes).2).1.memset_of_le p lead.length 0 (Or.inl (Nat.le_refl _))
  have hold : Args (memset m p 0 lead.length) (p + lead.length + w.length) bound false args :=
    hargs.memset (fun htrue => Or.inl (List.length_pos_iff.2 (hprev htrue rfl))) (by omega)
  refine ⟨_, _, cmd', p + lead.length, hready', ?_, ?_⟩
  · exact hold.mono.append hword (fun b hb => (hw b hb).1) (by omega) rfl
  · rw [runcmdLoop, hget]
    show (if (args.map Prod.fst).length = _ then _ else _) = _
    rw [List.length_map, List.map_append]
    rfl

variable (turns t env pipes h) in
/-- A redirection opens what its word points to. -/
theorem runcmdLoop_redirect {lead' : List UInt8}
    (hready : Ready m p cmd (lineText trail (⟨lead, .redirect d⟩ :: ⟨lead', .word w⟩ :: is)))
    (hwf : WellFormed prev (⟨lead, .redirect d⟩ :: ⟨lead', .word w⟩ :: is)) (htrail : White trail)
    (hargs : Args m p bound prev args)
    (hb : (lineText trail (⟨lead, .redirect d⟩ :: ⟨lead', .word w⟩ :: is)).length < bound) :
    ∃ m' p' cmd' t', Ready m' p' cmd' (lineText trail is) ∧ Args m' p' bound true args ∧
      runcmdLoop env pipes bound (turns + 1) m cmd t (args.map Prod.fst) h =
        let r := reopen env h d.fd (wordAndRest trail w is) d.flags
        if r.2 ≠ 0 then some r
        else runcmdLoop env pipes bound turns m' cmd' t' (args.map Prod.fst) r.1 := by
  obtain ⟨hlead, -, -, hlead', ⟨hne, hw⟩, -, his⟩ := hwf
  have hrest := lineText_ne_zero his htrail
  have hlen : lead.length < bound ∧ lead'.length + w.length < bound ∧
      (w ++ lineText trail is).length < bound := by
    rw [length_lineText_cons, length_lineText_cons] at hb
    simp only [Tok.text, List.length_append] at hb ⊢
    omega
  have hsecond : ∀ c ∈ lead' ++ (w ++ lineText trail is), c ≠ 0 := by
    intro c hc
    rw [List.mem_append, List.mem_append] at hc
    rcases hc with hc | hc | hc
    · exact white_ne_zero hlead' hc
    · exact (hw c hc).1
    · exact hrest c hc
  have hline : Ready m p cmd (lead ++ d.char :: (lead' ++ (w ++ lineText trail is))) := hready
  obtain ⟨cmd₁, hget₁, hready₁⟩ := gettoken_redirect (t := t) hline hlead hsecond hlen.1
  obtain ⟨cmd₂, hget₂, hready₂⟩ := gettoken_word (t := p + lead.length) hready₁ hlead' hne hw hrest
    (lineText_delimiter his htrail) hlen.2.1
  have hname : stringAt (memset (memset m p 0 (lead.length + 1)) (p + lead.length + 1) 0 lead'.length)
      bound (p + lead.length + 1 + lead'.length) = some (wordAndRest trail w is) := by
    refine stringAt_eq ⟨?_, fun c hc => hsecond c (List.mem_append_right _ hc)⟩ hlen.2.2
    have hbytes := hready₁.bytes
    rw [List.append_assoc] at hbytes
    exact (at_append.1 hbytes).2.memset_of_le _ _ 0 (Or.inl (Nat.le_refl _))
  have hold : Args (memset m p 0 (lead.length + 1)) (p + lead.length + 1) bound false args :=
    hargs.memset (fun _ => Or.inl (Nat.zero_lt_succ _)) (by omega)
  have hold' : Args (memset (memset m p 0 (lead.length + 1)) (p + lead.length + 1) 0 lead'.length)
      (p + lead.length + 1 + lead'.length + w.length) bound false args :=
    hold.memset nofun (by omega)
  refine ⟨_, _, cmd₂, p + lead.length + 1 + lead'.length, hready₂, hold'.mono, ?_⟩
  rw [runcmdLoop, hget₁]
  cases d with
  | input =>
    change Option.bind (gettoken bound _ cmd₁ (p + lead.length)) _ = _
    rw [hget₂]
    change Option.bind (stringAt _ bound (p + lead.length + 1 + lead'.length)) _ = _
    rw [hname]
    rfl
  | output =>
    change Option.bind (gettoken bound _ cmd₁ (p + lead.length)) _ = _
    rw [hget₂]
    change Option.bind (stringAt _ bound (p + lead.length + 1 + lead'.length)) _ = _
    rw [hname]
    rfl

/-- A redirection without a word. -/
theorem runcmdLoop_noWord (hready : Ready m p cmd (lineText trail (⟨lead, .redirect d⟩ :: is)))
    (hwf : WellFormed prev (⟨lead, .redirect d⟩ :: is)) (htrail : White trail)
    (hnext : ∀ i ∈ is.head?, i.tok.isWord = false)
    (hb : (lineText trail (⟨lead, .redirect d⟩ :: is)).length < bound) (argv : List ℕ) :
    runcmdLoop env pipes bound (turns + 1) m cmd t argv h = some (h ++ [.print d.message], -1) := by
  obtain ⟨hlead, -, -, his⟩ := hwf
  have hrest := lineText_ne_zero his htrail
  rw [length_lineText_cons] at hb
  have hline : Ready m p cmd (lead ++ d.char :: lineText trail is) := hready
  have hlen : lead.length < bound := by
    have : lead.length = (Item.lead ⟨lead, .redirect d⟩).length := rfl
    omega
  obtain ⟨cmd₁, hget₁, hready₁⟩ := gettoken_redirect (t := t) hline hlead hrest hlen
  have hsecond : ∃ tok, tok.token ≠ 0x77 ∧
      gettoken bound (memset m p 0 (lead.length + 1)) cmd₁ (p + lead.length) = some tok := by
    cases is with
    | nil =>
      have hlen' : trail.length < bound := by
        have : (lineText trail []).length = trail.length := rfl
        omega
      obtain ⟨cmd₂, hget₂⟩ := gettoken_end (t := p + lead.length) hready₁ htrail hlen'
      have hzero : (0 : UInt8) ≠ 0x77 := by decide
      exact ⟨_, hzero, hget₂⟩
    | cons i is =>
      obtain ⟨lead', tok⟩ := i
      obtain ⟨hlead', -, -, his'⟩ := his
      cases tok with
      | word w => exact absurd (hnext _ rfl) Bool.true_eq_false.mp
      | redirect d' =>
        have hline' : Ready (memset m p 0 (lead.length + 1)) (p + lead.length + 1) cmd₁
            (lead' ++ d'.char :: lineText trail is) := hready₁
        have hlen' : lead'.length < bound := by
          rw [length_lineText_cons] at hb
          have : lead'.length = (Item.lead ⟨lead', .redirect d'⟩).length := rfl
          omega
        obtain ⟨cmd₂, hget₂, -⟩ := gettoken_redirect (t := p + lead.length) hline' hlead'
          (lineText_ne_zero his' htrail) hlen'
        have hchar : d'.char ≠ 0x77 := by cases d' <;> decide
        exact ⟨_, hchar, hget₂⟩
  obtain ⟨⟨token, m', cmd', t'⟩, hne, hget₂⟩ := hsecond
  rw [runcmdLoop, hget₁]
  cases d with
  | input =>
    change Option.bind (gettoken bound _ cmd₁ (p + lead.length)) _ = _
    rw [hget₂]
    exact if_pos hne
  | output =>
    change Option.bind (gettoken bound _ cmd₁ (p + lead.length)) _ = _
    rw [hget₂]
    exact if_pos hne

/-- **What `runcmd` does.**  The arguments are the words; what is passed to `reopen` is the rest of the line from
the word of the redirection on. -/
theorem runcmdLoop_eq (hready : Ready m p cmd (lineText trail is)) (hwf : WellFormed prev is)
    (htrail : White trail) (hargs : Args m p bound prev args) (hb : (lineText trail is).length < bound)
    (hturns : is.length < turns) :
    runcmdLoop env pipes bound turns m cmd t (args.map Prod.fst) h =
      some (shell env (wordAndRest trail) (args.map Prod.snd) h is) := by
  induction hn : is.length using Nat.strongRecOn generalizing is m p cmd prev args turns t h with
  | ind n ih =>
    subst hn
    match is, hready, hwf, hb, hturns, ih with
    | [], hready, hwf, hb, hturns, ih =>
      rw [runcmdLoop_end hready htrail hargs hb hturns, shell]
    | ⟨lead, .word w⟩ :: is, hready, hwf, hb, hturns, ih =>
      obtain ⟨turns, rfl⟩ := Nat.exists_eq_add_one.2 (Nat.zero_lt_of_lt hturns)
      obtain ⟨m', p', cmd', t', hready', hargs', heq⟩ :=
        runcmdLoop_word turns t env pipes h hready hwf htrail hargs hb
      rw [length_lineText_cons] at hb
      have hnext := ih is.length (Nat.lt_succ_self _) (h := h) (t := t') hready' hwf.2.2.2 hargs' (by omega)
        (Nat.lt_of_succ_lt_succ hturns) rfl
      rw [heq, shell, List.length_map, hnext, List.map_append]
      split
      · rfl
      · rfl
    | ⟨lead, .redirect d⟩ :: ⟨lead', .word w⟩ :: is, hready, hwf, hb, hturns, ih =>
      obtain ⟨turns, rfl⟩ := Nat.exists_eq_add_one.2 (Nat.zero_lt_of_lt hturns)
      obtain ⟨m', p', cmd', t', hready', hargs', heq⟩ :=
        runcmdLoop_redirect turns t env pipes h hready hwf htrail hargs hb
      rw [length_lineText_cons, length_lineText_cons] at hb
      have hlt : is.length + 1 + 1 < turns + 1 := hturns
      have hlt' : is.length < is.length + 1 + 1 := by omega
      have hturns' : is.length < turns := by omega
      have hb' : (lineText trail is).length < bound := by omega
      have hnext := ih is.length hlt' (t := t') (h := (reopen env h d.fd (wordAndRest trail w is) d.flags).1)
        hready' hwf.2.2.2.2.2.2 hargs' hb' hturns' rfl
      rw [heq, shell]
      simp only [hnext]
      split
      · rfl
      · rfl
    | ⟨lead, .redirect d⟩ :: [], hready, hwf, hb, hturns, ih =>
      obtain ⟨turns, rfl⟩ := Nat.exists_eq_add_one.2 (Nat.zero_lt_of_lt hturns)
      rw [runcmdLoop_noWord hready hwf htrail nofun hb, shell]
      exact nofun
    | ⟨lead, .redirect d⟩ :: ⟨lead', .redirect d'⟩ :: is, hready, hwf, hb, hturns, ih =>
      obtain ⟨turns, rfl⟩ := Nat.exists_eq_add_one.2 (Nat.zero_lt_of_lt hturns)
      rw [runcmdLoop_noWord hready hwf htrail (fun i hi => by cases hi; rfl) hb, shell]
      exact nofun

/-! ### The right files -/

theorem reopen_events (env : Env) (h : List Event) (fd : ℤ) (filename : List UInt8) (flags : ℕ) :
    h ++ [.close fd, .open filename flags] <+: (reopen env h fd filename flags).1 := by
  rw [reopen]
  simp only
  split
  · rw [List.append_assoc (h ++ _)]
    exact List.prefix_append _ _
  · exact List.prefix_rfl

theorem testfile_events (env : Env) (h : List Event) (name : List UInt8) :
    h <+: (testfile env h name).1 := by
  fun_cases testfile env h name with
  | case1 => exact List.prefix_append _ _
  | case2 => exact (List.prefix_append _ _).trans (List.prefix_append _ _)

theorem runit_events (env : Env) (h : List Event) (argv : List (List UInt8)) :
    h <+: (runit env h argv).1 := by
  fun_cases runit env h argv with
  | case1 => exact List.prefix_rfl
  | case2 => exact List.prefix_append _ _
  | case3 => exact List.prefix_rfl
  | case4 name args hcd h' ret htest hret =>
    have := testfile_events env h name
    rw [htest] at this
    exact this
  | case5 name args hcd h' ret htest hret =>
    have := testfile_events env h name
    rw [htest] at this
    exact this.trans (List.prefix_append _ _)

/-- Events are only added. -/
theorem shell_events (env : Env) (name : List UInt8 → List Item → List UInt8) (argv : List (List UInt8))
    (h : List Event) (is : List Item) : h <+: (shell env name argv h is).1 := by
  fun_induction shell env name argv h is with
  | case1 argv h => exact runit_events env h argv
  | case2 argv h lead w is hmax => exact List.prefix_append _ _
  | case3 argv h lead w is hmax ih => exact ih
  | case4 argv h lead d lead' w is r hret =>
    exact (List.prefix_append _ _).trans (reopen_events env h d.fd (name w is) d.flags)
  | case5 argv h lead d lead' w is r hret ih =>
    exact ((List.prefix_append _ _).trans (reopen_events env h d.fd (name w is) d.flags)).trans ih
  | case6 => exact List.prefix_append _ _

/-- The events of a redirection show what was opened. -/
theorem shell_redirect_events (env : Env) (name : List UInt8 → List Item → List UInt8)
    (argv : List (List UInt8)) (h : List Event) (lead lead' : List UInt8) (d : Dir) (w : List UInt8)
    (is : List Item) :
    h ++ [.close d.fd, .open (name w is) d.flags] <+:
      (shell env name argv h (⟨lead, .redirect d⟩ :: ⟨lead', .word w⟩ :: is)).1 := by
  have hopen := reopen_events env h d.fd (name w is) d.flags
  rw [shell]
  split
  · exact hopen
  · exact hopen.trans (shell_events env name argv _ is)

/-- Behind the word of the first redirection, when at most 32 words stand before it, there is nothing. -/
def FirstEndsLine (trail : List UInt8) (n : ℕ) (is : List Item) : Prop :=
  ∀ before lead d lead' w rest, is = before ++ ⟨lead, .redirect d⟩ :: ⟨lead', .word w⟩ :: rest →
    (∀ i ∈ before, i.tok.isWord = true) → n + before.length ≤ EXEC_MAX_ARG_NUM → lineText trail rest = []

theorem eq_nil_of_lineText (h : WellFormed prev is) (htext : lineText trail is = []) : is = [] := by
  cases is with
  | nil => rfl
  | cons i is =>
    rw [lineText, List.append_eq_nil_iff, List.append_eq_nil_iff] at htext
    have htok := h.2.1
    cases hi : i.tok with
    | word w =>
      rw [hi] at htext htok
      exact absurd htext.2.1 htok.1
    | redirect d =>
      rw [hi] at htext
      exact nomatch htext.2.1

/-- A redirection at the head of the line is the first one. -/
theorem firstEndsLine_redirect {lead' : List UInt8} {n : ℕ} (hn : n ≤ EXEC_MAX_ARG_NUM) :
    FirstEndsLine trail n (⟨lead, .redirect d⟩ :: ⟨lead', .word w⟩ :: is) ↔ lineText trail is = [] := by
  constructor
  · intro h
    exact h [] lead d lead' w is rfl (fun i hi => absurd hi List.not_mem_nil) hn
  · rintro htext before lead₁ d₁ lead₁' w₁ rest heq hbefore -
    cases before with
    | nil =>
      obtain ⟨-, hrest⟩ := List.cons.inj heq
      obtain ⟨-, rfl⟩ := List.cons.inj hrest
      exact htext
    | cons i before =>
      obtain ⟨rfl, -⟩ := List.cons.inj heq
      exact absurd (hbefore _ List.mem_cons_self) Bool.false_ne_true

/-- A word is one more argument before the first redirection. -/
theorem firstEndsLine_word {n : ℕ} :
    FirstEndsLine trail n (⟨lead, .word w⟩ :: is) ↔ FirstEndsLine trail (n + 1) is := by
  constructor
  · intro h before lead₁ d lead' w₁ rest heq hbefore hlen
    refine h (⟨lead, .word w⟩ :: before) lead₁ d lead' w₁ rest (by rw [heq]; rfl) (fun i hi => ?_) ?_
    · rcases List.mem_cons.1 hi with rfl | hi
      · rfl
      · exact hbefore i hi
    · rw [List.length_cons]
      omega
  · intro h before lead₁ d lead' w₁ rest heq hbefore hlen
    cases before with
    | nil => exact nomatch (List.cons.inj heq).1
    | cons i before =>
      refine h before lead₁ d lead' w₁ rest (List.cons.inj heq).2
        (fun i hi => hbefore i (List.mem_cons_of_mem _ hi)) ?_
      rw [List.length_cons] at hlen
      omega

/-- The first redirection has no word. -/
theorem firstEndsLine_noWord {n : ℕ} (hnext : ∀ i ∈ is.head?, i.tok.isWord = false) :
    FirstEndsLine trail n (⟨lead, .redirect d⟩ :: is) := by
  intro before lead₁ d₁ lead' w rest heq hbefore _
  cases before with
  | nil =>
    obtain ⟨-, rfl⟩ := List.cons.inj heq
    exact absurd (hnext _ rfl) Bool.true_eq_false.mp
  | cons i before =>
    obtain ⟨rfl, -⟩ := List.cons.inj heq
    exact absurd (hbefore _ List.mem_cons_self) Bool.false_ne_true

/-- The rest of the line makes no difference exactly when there is none behind the first redirection. -/
theorem shell_eq_iff (hwf : WellFormed prev is) (argv : List (List UInt8)) (h : List Event)
    (hargv : argv.length ≤ EXEC_MAX_ARG_NUM) :
    shell env (wordAndRest trail) argv h is = shell env wordOnly argv h is ↔
      FirstEndsLine trail argv.length is := by
  induction is generalizing prev argv with
  | nil =>
    refine iff_of_true rfl fun before lead d lead' w rest heq => ?_
    cases before with
    | nil => exact nomatch heq
    | cons i before => exact nomatch heq
  | cons i is ih =>
    obtain ⟨lead, tok⟩ := i
    cases tok with
    | word w =>
      rw [firstEndsLine_word, shell, shell]
      by_cases hmax : argv.length = EXEC_MAX_ARG_NUM
      · rw [if_pos hmax, if_pos hmax]
        refine iff_of_true rfl fun before lead d lead' w rest _ _ hlen => ?_
        omega
      · have hlen : (argv ++ [w]).length = argv.length + 1 := by
          rw [List.length_append, List.length_singleton]
        rw [if_neg hmax, if_neg hmax, ih hwf.2.2.2 (argv ++ [w]) (by omega), hlen]
    | redirect d =>
      cases is with
      | nil =>
        rw [shell, shell]
        · exact iff_of_true rfl (firstEndsLine_noWord nofun)
        · exact nofun
        · exact nofun
      | cons i is =>
        obtain ⟨lead', tok⟩ := i
        cases tok with
        | redirect d' =>
          rw [shell, shell]
          · exact iff_of_true rfl (firstEndsLine_noWord fun i hi => by cases hi; rfl)
          · exact nofun
          · exact nofun
        | word w =>
          rw [firstEndsLine_redirect hargv]
          constructor
          · intro heq
            -- the events up to the first `open` differ in its file name
            have hactual := shell_redirect_events env (wordAndRest trail) argv h lead lead' d w is
            have hword := shell_redirect_events env wordOnly argv h lead lead' d w is
            rw [heq] at hactual
            have hopen := (List.prefix_of_prefix_length_le hactual hword (by simp)).eq_of_length (by simp)
            have hname := List.append_cancel_left hopen
            simpa [wordAndRest, wordOnly] using hname
          · intro htext
            obtain rfl := eq_nil_of_lineText hwf.2.2.2.2.2.2 htext
            have hname : wordAndRest trail w [] = wordOnly w [] := by
              rw [wordAndRest, htext, List.append_nil, wordOnly]
            rw [shell, shell, hname]
            rfl

/-- **Redirections of the shell.**  For every command line made of words, white space and redirections, `runcmd`
comes back; it passes the word of each redirection to `reopen` and the other words to `testfile` and `exec` if
and only if the word of the first redirection ends the line, or more than 32 words stand before it. -/
theorem runcmd_iff (env : Env) (pipes : ℤ × ℤ) (is : List Item) (trail : List UInt8)
    (hwf : WellFormed false is) (htrail : White trail) (m : Mem) (cmd : ℕ)
    (hcmd : StringAt m cmd (lineText trail is)) :
    ∃ r, (∀ turns bound, is.length < turns → (lineText trail is).length < bound →
        runcmd env pipes turns bound m cmd = some r) ∧
      (r = shell env wordOnly [] [] is ↔ FirstEndsLine trail 0 is) := by
  refine ⟨shell env (wordAndRest trail) [] [] is, fun turns bound hturns hbound => ?_,
    shell_eq_iff hwf [] [] (Nat.zero_le _)⟩
  have hargs : Args m cmd bound false [] := fun arg harg => absurd harg List.not_mem_nil
  exact runcmdLoop_eq ⟨hcmd.bytes, Or.inl rfl⟩ hwf htrail hargs hbound hturns

/-- `a<b c`, where every call of the system succeeds and returns 0. -/
def redirectedLine : List Item :=
  [⟨[], .word [0x61]⟩, ⟨[], .redirect .input⟩, ⟨[], .word [0x62]⟩, ⟨[0x20], .word [0x63]⟩]

/-- The buffer with the line. -/
def redirectedMem : Mem := literal (lineText [] redirectedLine)

theorem redirectedMem_string : StringAt redirectedMem 0 (lineText [] redirectedLine) :=
  stringAt_literal (by decide)

/-- The line `a<b c`. -/
theorem runcmd_iff_redirected :
    ∃ r, (∀ turns bound, redirectedLine.length < turns →
        (lineText [] redirectedLine).length < bound →
        runcmd (fun _ => 0) (0, 0) turns bound redirectedMem 0 = some r) ∧
      (r = shell (fun _ => 0) wordOnly [] [] redirectedLine ↔ FirstEndsLine [] 0 redirectedLine) :=
  runcmd_iff (fun _ => 0) (0, 0) redirectedLine [] (by decide) (by decide) redirectedMem 0
    redirectedMem_string

/-- For `a<b c` the file `b c` is opened, and not `b`. -/
theorem runcmd_opens_rest :
    WellFormed false redirectedLine ∧ StringAt redirectedMem 0 (lineText [] redirectedLine) ∧
      runcmd (fun _ => 0) (0, 0) 10 10 redirectedMem 0 =
        some ([.close 0, .open [0x62, 0x20, 0x63] O_RDONLY, .open [0x61] O_RDONLY, .close 0,
          .exec [[0x61], [0x63]]], 0) ∧
      shell (fun _ => 0) wordOnly [] [] redirectedLine =
        ([.close 0, .open [0x62] O_RDONLY, .open [0x61] O_RDONLY, .close 0, .exec [[0x61], [0x63]]], 0) :=
  ⟨by decide, redirectedMem_string, by decide +kernel, by decide +kernel⟩

end Ucore.Shell
