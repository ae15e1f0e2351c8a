/-!
# Tables keyed by number

A table holds at most one value per key and keeps its entries sorted, highest key first: blocks
arrive at the top, and a rewind drops from there. The order is part of the type, so two tables
with the same entries are equal.
-/
namespace CrossSafety

/-- Keys that are told apart and ordered by a number. -/
class Numbered (κ : Type) where
  number : κ → Nat
  number_inj : ∀ {a b : κ}, number a = number b → a = b

instance : Numbered UInt64 := ⟨UInt64.toNat, UInt64.toNat_inj.mp⟩
instance : Numbered UInt32 := ⟨UInt32.toNat, UInt32.toNat_inj.mp⟩

/-- At most one value per key, highest key first. -/
structure Table (κ α : Type) [Numbered κ] where
  /-- The entries, highest key first. -/
  entries : List (κ × α)
  descending : entries.Pairwise fun a b => Numbered.number b.1 < Numbered.number a.1

namespace Table

variable {κ α : Type} [Numbered κ]

/-- Whether key `a` stands above key `b`. -/
abbrev Above (a b : κ × α) : Prop := Numbered.number b.1 < Numbered.number a.1

instance [DecidableEq κ] [DecidableEq α] : DecidableEq (Table κ α) := fun a b =>
  if h : a.entries = b.entries then
    isTrue (by cases a; cases b; cases h; rfl)
  else isFalse fun e => h (congrArg entries e)

def empty : Table κ α := ⟨[], .nil⟩

instance : Inhabited (Table κ α) := ⟨empty⟩
instance : EmptyCollection (Table κ α) := ⟨empty⟩

def isEmpty (t : Table κ α) : Bool := t.entries.isEmpty

def size (t : Table κ α) : Nat := t.entries.length

/-- Looks a key up in entries sorted highest first. -/
def lookup (key : κ) : List (κ × α) → Option α
  | [] => none
  | (k, value) :: rest =>
    if Numbered.number key < Numbered.number k then lookup key rest
    else if Numbered.number key = Numbered.number k then some value
    else none

def get? (t : Table κ α) (key : κ) : Option α := lookup key t.entries

def contains (t : Table κ α) (key : κ) : Bool := (t.get? key).isSome

def last? (t : Table κ α) : Option α := t.entries.head?.map Prod.snd

/-- Puts a value at its place among entries sorted highest first, in place of one that is there. -/
def place (key : κ) (value : α) : List (κ × α) → List (κ × α)
  | [] => [(key, value)]
  | (k, v) :: rest =>
    if Numbered.number key < Numbered.number k then (k, v) :: place key value rest
    else if Numbered.number key = Numbered.number k then (key, value) :: rest
    else (key, value) :: (k, v) :: rest

theorem mem_place {key : κ} {value : α} {e : κ × α} {entries : List (κ × α)} :
    e ∈ place key value entries → e = (key, value) ∨ e ∈ entries := by
  induction entries with
  | nil => simp [place]
  | cons head rest ih =>
    unfold place
    split
    · intro h
      rcases List.mem_cons.mp h with h | h
      · exact .inr (h ▸ List.mem_cons_self)
      · exact (ih h).imp id (List.mem_cons_of_mem _)
    · split <;> intro h <;> rcases List.mem_cons.mp h with h | h
      · exact .inl h
      · exact .inr (List.mem_cons_of_mem _ h)
      · exact .inl h
      · exact .inr h

theorem place_descending {key : κ} {value : α} {entries : List (κ × α)}
    (h : entries.Pairwise Above) : (place key value entries).Pairwise Above := by
  induction entries with
  | nil => simp [place]
  | cons head rest ih =>
    obtain ⟨k, v⟩ := head
    have below : ∀ e ∈ rest, Numbered.number e.1 < Numbered.number k := (List.pairwise_cons.mp h).1
    unfold place
    split
    · rename_i lower
      refine List.pairwise_cons.mpr ⟨fun e he => ?_, ih h.of_cons⟩
      rcases mem_place he with rfl | he
      · exact lower
      · exact below e he
    · split
      · rename_i same
        refine List.pairwise_cons.mpr ⟨fun e he => ?_, h.of_cons⟩
        show Numbered.number e.1 < Numbered.number key
        exact same ▸ below e he
      · rename_i notLower notSame
        have higher : Numbered.number k < Numbered.number key := by omega
        refine List.pairwise_cons.mpr ⟨fun e he => ?_, h⟩
        rcases List.mem_cons.mp he with rfl | he
        · exact higher
        · exact Nat.lt_trans (below e he) higher

def insert (t : Table κ α) (key : κ) (value : α) : Table κ α :=
  ⟨place key value t.entries, place_descending t.descending⟩

def insertNew (t : Table κ α) (key : κ) (value : α) : Table κ α :=
  if t.contains key then t else t.insert key value

def below (t : Table κ α) (key : κ) : Table κ α :=
  ⟨t.entries.dropWhile fun e => Numbered.number key ≤ Numbered.number e.1,
    t.descending.sublist (List.dropWhile_sublist _)⟩

def erase (t : Table κ α) (key : κ) : Table κ α :=
  ⟨t.entries.filter fun e => Numbered.number e.1 ≠ Numbered.number key,
    t.descending.sublist List.filter_sublist⟩

def filter (t : Table κ α) (keep : α → Bool) : Table κ α :=
  ⟨t.entries.filter fun e => keep e.2, t.descending.sublist List.filter_sublist⟩

/-- The entries, lowest key first. -/
def toList (t : Table κ α) : List (κ × α) := t.entries.reverse

def keys (t : Table κ α) : List κ := t.toList.map Prod.fst

def values (t : Table κ α) : List α := t.toList.map Prod.snd

/-- The values at `key` and above, lowest key first. -/
def valuesFrom (t : Table κ α) (key : κ) : List α :=
  ((t.entries.takeWhile fun e => Numbered.number key ≤ Numbered.number e.1).map Prod.snd).reverse

/-- The table of some entries. Of two at one key the later one stays. -/
def ofList (entries : List (κ × α)) : Table κ α :=
  entries.foldl (fun t e => t.insert e.1 e.2) empty

end Table

end CrossSafety
