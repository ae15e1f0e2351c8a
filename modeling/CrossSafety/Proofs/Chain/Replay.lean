import CrossSafety.Chain.Journal
import CrossSafety.Proofs.Chain.Encoding

/-!
# The journal holds its changes

`Journal.ofChanges` is the journal to which some changes were written. Its file is split into the
lines that were written, and reading the lines gives the changes.
-/
namespace CrossSafety

namespace Journal

/-- The journal to which some changes were written, first one first. -/
def ofChanges (changes : List Change) : Journal := ⟨(changes.map lineOf).reverse⟩

theorem append_ofChanges (changes : List Change) (change : Change) :
    (ofChanges changes).append change = ofChanges (changes ++ [change]) := by
  simp [append, ofChanges]

theorem newline_not_mem_lineOf (change : Change) : 10 ∉ lineOf change :=
  change.plain_toJson.newline_not_mem [] (by simp)

theorem lineOf_ne_nil (change : Change) : lineOf change ≠ [] := by
  cases change <;> exact List.cons_ne_nil _ _

/-! ## Reading the lines -/

theorem recordLines_ofChanges (changes : List Change) :
    (ofChanges changes).recordLines = changes.map lineOf := by
  rw [recordLines, ofChanges, List.reverse_reverse, List.filter_eq_self]
  intro line hline
  obtain ⟨change, -, rfl⟩ := List.mem_map.mp hline
  have hne := lineOf_ne_nil change
  simpa using hne

theorem readLine_lineOf (index : Nat) (change : Change) :
    readLine index (lineOf change) = .ok change := by
  rw [readLine, lineOf, Json.decode?_render change.plain_toJson, Change.ofJson?_toJson]

theorem readLines_map (changes : List Change) :
    ∀ index, readLines index (changes.map lineOf) = .ok changes := by
  induction changes with
  | nil => exact fun _ => rfl
  | cons change rest ih =>
    intro index
    rw [List.map_cons, readLines, readLine_lineOf, ih]
    rfl

theorem changes_ofChanges (changes : List Change) :
    (ofChanges changes).changes = .ok changes := by
  rw [Journal.changes, recordLines_ofChanges, readLines_map]

/-! ## Splitting the file -/

theorem split_line {line : Bytes} (h : 10 ∉ line) (rest : Bytes) :
    ∀ lines part, split lines part (line ++ 10 :: rest) =
      split ((part.reverse ++ line) :: lines) [] rest := by
  induction line with
  | nil => intro lines part; simp [split]
  | cons c line ih =>
    intro lines part
    obtain ⟨hne, hrest⟩ := not_or.mp (fun hmem => h (List.mem_cons.mpr hmem))
    rw [List.cons_append, split, if_neg (Ne.symm hne), ih hrest]
    simp

theorem ofFile_bytes (changes : List Change) :
    ofFile (ofChanges changes).bytes = ofChanges changes := by
  have hsplit : ∀ (changes : List Change) (lines : List Bytes),
      split lines [] ((changes.map lineOf).foldr (fun line later => line ++ 10 :: later) []) =
        (changes.map lineOf).reverse ++ lines := by
    intro changes
    induction changes with
    | nil => exact fun _ => rfl
    | cons change rest ih =>
      intro lines
      rw [List.map_cons, List.foldr_cons, split_line (newline_not_mem_lineOf change), ih]
      simp
  rw [ofFile, bytes, ofChanges, List.foldl_reverse, hsplit, List.append_nil]

end Journal

theorem Ledger.replay_append (state : Ledger) (changes : List Change) (change : Change) :
    state.replay (changes ++ [change]) = (state.replay changes).apply change := by
  rw [replay, List.foldl_append]
  rfl

end CrossSafety
