import CrossSafety.Proofs.Chain.Replay

/-!
# A journal cut at any byte

A crash may leave any number of the bytes of a journal file. The lines that are there with their
newlines are kept when the file is opened, and the line that was cut is dropped: no newline stands
inside a line, so the part of a line is never taken for a whole one.
-/
namespace CrossSafety.Journal

/-- The changes whose lines, newlines included, lie within the first bytes of their journal. -/
def wholeWithin : Nat → List Change → List Change
  | _, [] => []
  | size, change :: rest =>
    if (lineOf change).length < size then
      change :: wholeWithin (size - ((lineOf change).length + 1)) rest
    else []

variable {change : Change} {changes longer : List Change} {size : Nat}

theorem foldl_append : changes.foldl append empty = ofChanges changes := by
  have hfold : ∀ (later earlier : List Change),
      later.foldl append (ofChanges earlier) = ofChanges (earlier ++ later) := by
    intro later
    induction later with
    | nil => intro earlier; rw [List.append_nil]; rfl
    | cons change later ih =>
      intro earlier
      rw [List.foldl_cons, append_ofChanges, ih, List.append_assoc]
      rfl
  exact hfold changes []

theorem bytes_ofChanges_cons (change : Change) (rest : List Change) :
    (ofChanges (change :: rest)).bytes = lineOf change ++ 10 :: (ofChanges rest).bytes := by
  simp only [bytes, ofChanges, List.foldl_reverse, List.map_cons, List.foldr_cons]

theorem length_bytes_cons (change : Change) (rest : List Change) :
    (ofChanges (change :: rest)).bytes.length =
      (lineOf change).length + 1 + (ofChanges rest).bytes.length := by
  rw [bytes_ofChanges_cons, List.length_append, List.length_cons]
  omega

/-! ## The changes that are still whole -/

theorem wholeWithin_prefix : ∀ (changes : List Change) (size : Nat),
    wholeWithin size changes <+: changes := by
  intro changes
  induction changes with
  | nil => exact fun _ => List.prefix_rfl
  | cons change rest ih =>
    intro size
    rw [wholeWithin]
    split
    · exact List.cons_prefix_cons.mpr ⟨rfl, ih _⟩
    · exact List.nil_prefix

theorem length_bytes_wholeWithin : ∀ (changes : List Change) (size : Nat),
    (ofChanges (wholeWithin size changes)).bytes.length ≤ size := by
  intro changes
  induction changes with
  | nil => exact fun _ => Nat.zero_le _
  | cons change rest ih =>
    intro size
    rw [wholeWithin]
    split
    · rw [length_bytes_cons]
      have := ih (size - ((lineOf change).length + 1))
      omega
    · exact Nat.zero_le _

/-- No further line fits: every prefix whose lines fit is among the whole changes. -/
theorem prefix_wholeWithin : ∀ (longer changes : List Change) (size : Nat), longer <+: changes →
    (ofChanges longer).bytes.length ≤ size → longer <+: wholeWithin size changes := by
  intro longer
  induction longer with
  | nil => exact fun _ _ _ _ => List.nil_prefix
  | cons change longer ih =>
    rintro _ size ⟨rest, rfl⟩ hfits
    rw [length_bytes_cons] at hfits
    rw [List.cons_append, wholeWithin, if_pos (by omega)]
    exact List.cons_prefix_cons.mpr ⟨rfl, ih _ _ (List.prefix_append _ _) (by omega)⟩

/-! ## Opening the cut file -/

/-- A text without a newline adds no line. -/
theorem split_torn {torn : Bytes} (h : 10 ∉ torn) (lines : List Bytes) :
    ∀ part, split lines part torn = lines := by
  induction torn with
  | nil => exact fun _ => rfl
  | cons c torn ih =>
    intro part
    obtain ⟨hne, hrest⟩ := not_or.mp (fun hmem => h (List.mem_cons.mpr hmem))
    rw [split, if_neg (Ne.symm hne), ih hrest]

theorem split_take : ∀ (changes : List Change) (size : Nat) (lines : List Bytes),
    split lines [] ((ofChanges changes).bytes.take size) =
      ((wholeWithin size changes).map lineOf).reverse ++ lines := by
  intro changes
  induction changes with
  | nil => exact fun size lines => by rw [show (ofChanges []).bytes = [] from rfl, List.take_nil]; rfl
  | cons change rest ih =>
    intro size lines
    rw [bytes_ofChanges_cons, wholeWithin]
    split
    · -- the line is whole: its newline is read, and the rest is cut as a journal of its own
      rename_i hwhole
      obtain ⟨left, rfl⟩ : ∃ left, size = (lineOf change).length + (left + 1) :=
        ⟨size - ((lineOf change).length + 1), by omega⟩
      rw [List.take_length_add_append, List.take_succ_cons,
        split_line (newline_not_mem_lineOf change),
        show (lineOf change).length + (left + 1) - ((lineOf change).length + 1) = left by omega, ih]
      simp
    · -- the line is cut, and with its newline everything behind it is gone
      rename_i hcut
      rw [List.take_append_of_le_length (by omega), split_torn]
      · rfl
      · exact fun hmem => newline_not_mem_lineOf change (List.mem_of_mem_take hmem)

theorem ofFile_take (changes : List Change) (size : Nat) :
    ofFile ((ofChanges changes).bytes.take size) = ofChanges (wholeWithin size changes) := by
  rw [ofFile, split_take, List.append_nil]
  rfl

/-- Changes are read back from a journal file that was cut at any byte: those whose lines are whole,
and the file is cut behind the last of them. The text of every change gives the change back and has
no newline in it. -/
theorem torn_reads (changes : List Change) (size : Nat) :
    (∃ whole, whole <+: changes ∧
      (ofFile ((changes.foldl append empty).bytes.take size)).changes = .ok whole ∧
      (ofFile ((changes.foldl append empty).bytes.take size)).bytes =
        (whole.foldl append empty).bytes ∧
      (whole.foldl append empty).bytes.length ≤ size ∧
      ∀ longer, longer <+: changes → (longer.foldl append empty).bytes.length ≤ size →
        longer <+: whole) ∧
    ∀ change, Json.decode? Change.shape Change.ofJson? (lineOf change) = some change ∧
      10 ∉ lineOf change := by
  simp only [foldl_append, ofFile_take, changes_ofChanges]
  refine ⟨⟨wholeWithin size changes, wholeWithin_prefix changes size, rfl, rfl,
    length_bytes_wholeWithin changes size, fun longer hprefix hfits =>
      prefix_wholeWithin longer changes size hprefix hfits⟩, fun change => ⟨?_, ?_⟩⟩
  · rw [lineOf, Json.decode?_render change.plain_toJson, Change.ofJson?_toJson]
  · exact newline_not_mem_lineOf change

end CrossSafety.Journal
