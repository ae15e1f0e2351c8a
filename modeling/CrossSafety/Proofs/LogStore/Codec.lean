import CrossSafety.LogStore.Basic
import CrossSafety.Proofs.LogStore.Delta

/-!
# Records read back what was written

Each kind of record has its own writer and its own reader. The lemmas below say that a reader
gives back every field that the writer was given, for every number and hash of the field's width,
and that a log which may follow another one within 255 blocks has an event that leads to it.
-/
namespace CrossSafety

theorem Bytes.fit_of_length {width : Nat} {bytes : Bytes} (h : bytes.length = width) :
    bytes.fit width = bytes := by
  subst h
  rw [Bytes.fit_eq, List.take_length, Nat.sub_self, List.replicate_zero, List.append_nil]

theorem ShortHash.ofBytes_bytes (hash : ShortHash) : ShortHash.ofBytes hash.bytes = hash := by
  cases hash with
  | mk bytes h => simp only [ShortHash.ofBytes, Bytes.fit_of_length h]

namespace Record

theorem bytes_make (kind : RecordKind) (content : Bytes) :
    (make kind content).bytes = kind.code :: content.fit 23 := rfl

@[simp] theorem code_make (kind : RecordKind) (content : Bytes) :
    (make kind content).code = kind.code := rfl

@[simp] theorem kind_make (kind : RecordKind) (content : Bytes) :
    (make kind content).kind = .ok kind := by
  simp [Record.kind]

theorem kind_of_expect {record : Record} {index : Nat} {kind : RecordKind}
    (h : record.expect index kind = .ok ()) : record.kind = .ok kind := by
  rw [expect] at h
  split at h
  · rename_i hcode
    rw [Record.kind, hcode, RecordKind.ofCode?_code]
  · cases h

theorem expect_make (kind : RecordKind) (content : Bytes) (index : Nat) :
    (make kind content).expect index kind = .ok () := by
  simp [expect]

/-- A field behind the kind is a part of the content, if the content reaches that far. -/
theorem field_make (kind : RecordKind) (before field after : Bytes) {start width : Nat}
    (hs : start = before.length + 1) (hw : width = field.length)
    (hfit : (before ++ field ++ after).length ≤ 23) :
    (make kind (before ++ field ++ after)).field start width = field := by
  subst hs hw
  have hcontent : (before ++ field ++ after).take 23 = before ++ field ++ after :=
    List.take_of_length_le hfit
  rw [Record.field, bytes_make, List.drop_succ_cons, Bytes.fit_eq, hcontent, List.append_assoc,
    List.append_assoc, List.drop_left, List.take_left]

end Record

theorem Record.number_make (kind : RecordKind) (before after : Bytes) {start width n : Nat}
    (hs : start = before.length + 1) (hn : n < Nat.pow 256 width)
    (hfit : before.length + width + after.length ≤ 23) :
    (Record.make kind (before ++ Bytes.little width n ++ after)).number start width = n := by
  rw [Record.number, Record.field_make kind before _ after hs (by simp)
    (by simp only [List.length_append, Bytes.length_little]; exact hfit),
    Bytes.littleValue_little_of_lt hn]

namespace Checkpoint

@[simp] theorem ofRecord_encode (checkpoint : Checkpoint) :
    ofRecord checkpoint.encode = checkpoint := by
  have hblock : checkpoint.encode.number 1 8 = checkpoint.block.toNat :=
    Record.number_make .checkpoint [] (Bytes.little 4 checkpoint.index.toNat
      ++ Bytes.little 8 checkpoint.timestamp.toNat) rfl checkpoint.block.toNat_lt (by simp)
  have hindex : checkpoint.encode.number 9 4 = checkpoint.index.toNat :=
    Record.number_make .checkpoint (Bytes.little 8 checkpoint.block.toNat)
      (Bytes.little 8 checkpoint.timestamp.toNat) (by simp) checkpoint.index.toNat_lt (by simp)
  have htime : checkpoint.encode.number 13 8 = checkpoint.timestamp.toNat := by
    have h : (Record.make .checkpoint (Bytes.little 8 checkpoint.block.toNat
        ++ Bytes.little 4 checkpoint.index.toNat ++ Bytes.little 8 checkpoint.timestamp.toNat
        ++ [])).number 13 8 = checkpoint.timestamp.toNat :=
      Record.number_make _ _ _ (by simp) checkpoint.timestamp.toNat_lt (by simp)
    rwa [List.append_nil] at h
  cases checkpoint
  simp only [ofRecord, hblock, hindex, htime, UInt64.ofNat_toNat, UInt32.ofNat_toNat]

@[simp] theorem kind_encode (checkpoint : Checkpoint) : checkpoint.encode.kind = .ok .checkpoint :=
  Record.kind_make _ _

@[simp] theorem decode_encode (index : Nat) (checkpoint : Checkpoint) :
    decode index checkpoint.encode = .ok checkpoint := by
  have h : checkpoint.encode.expect index .checkpoint = .ok () := Record.expect_make _ _ _
  simp only [decode, h, ofRecord_encode]
  rfl

end Checkpoint

namespace ShortHash

@[simp] theorem kind_encode (hash : ShortHash) : hash.encode.kind = .ok .canonicalHash :=
  Record.kind_make _ _

@[simp] theorem decode_encode (index : Nat) (hash : ShortHash) :
    decode index hash.encode = .ok hash := by
  have h : hash.encode.expect index .canonicalHash = .ok () := Record.expect_make _ _ _
  have hfield : hash.encode.field 1 20 = hash.bytes := by
    have h : (Record.make .canonicalHash ([] ++ hash.bytes ++ [])).field 1 20 = hash.bytes :=
      Record.field_make _ _ _ _ rfl hash.length_eq.symm (by simp [hash.length_eq])
    rwa [List.nil_append, List.append_nil] at h
  simp only [decode, h, Record.hash, hfield, ofBytes_bytes]
  rfl

end ShortHash

@[simp] theorem Record.kind_padding : Record.padding.kind = .ok .padding := kind_make _ _

namespace LogRecord

def flags (event : LogRecord) : UInt8 := if event.incrementsIndex then 1 else 0

@[simp] theorem kind_encode (event : LogRecord) : event.encode.kind = .ok .logRecord :=
  Record.kind_make _ _

@[simp] theorem ofRecord_encode (event : LogRecord) : ofRecord event.encode = event := by
  have hlen := event.hash.length_eq
  have hdiff : event.encode.field 1 1 = [event.blockDiff] :=
    Record.field_make .logRecord [] [event.blockDiff] (event.flags :: event.hash.bytes) rfl rfl
      (by simp [hlen])
  have hflags : event.encode.field 2 1 = [event.flags] :=
    Record.field_make .logRecord [event.blockDiff] [event.flags] event.hash.bytes rfl rfl
      (by simp [hlen])
  have hhash : event.encode.field 3 20 = event.hash.bytes := by
    have h : (Record.make .logRecord ([event.blockDiff, event.flags] ++ event.hash.bytes
        ++ [])).field 3 20 = event.hash.bytes :=
      Record.field_make _ _ _ _ rfl hlen.symm (by simp [hlen])
    rwa [List.append_nil] at h
  have hodd : (event.flags.toNat % 2 == 1) = event.incrementsIndex := by
    unfold flags
    cases event.incrementsIndex <;> rfl
  simp [ofRecord, Record.number, Record.hash, hdiff, hflags, hhash, Bytes.littleValue, hodd,
    ShortHash.ofBytes_bytes]

@[simp] theorem decode_encode (index : Nat) (event : LogRecord) :
    decode index event.encode = .ok event := by
  have h : event.encode.expect index .logRecord = .ok () := Record.expect_make _ _ _
  simp only [decode, h, ofRecord_encode]
  rfl

/-- The event of a log that stands where its checkpoint says. -/
def still (hash : ShortHash) : LogRecord := ⟨0, false, hash⟩

@[simp] theorem apply_still (hash : ShortHash) (position : Position) :
    (still hash).apply position = position := rfl

theorem between_self (position : Position) (hash : ShortHash) :
    between position position hash = .ok (still hash) := by
  simp [between, still, UInt64.lt_irrefl, UInt32.lt_irrefl]

end LogRecord

/-- Every record reads back as it was written. There is an event exactly between near positions: it
has the hash, and applied to the first position it gives the second one, with no number out of range.
Conversely an event that can be applied is the one between the two positions. -/
theorem LogRecord.between_codec (prev next : Position) (event : LogRecord) (hash : ShortHash)
    (checkpoint : Checkpoint) (index : Nat) :
    ((∃ found, between prev next hash = .ok found) ↔ prev.Near next) ∧
      (∀ found, between prev next hash = .ok found →
        found.hash = hash ∧ found.Fits prev ∧ found.apply prev = next) ∧
      (event.Fits prev → between prev (event.apply prev) event.hash = .ok event) ∧
      LogRecord.decode index event.encode = .ok event ∧
      Checkpoint.decode index checkpoint.encode = .ok checkpoint ∧
      ShortHash.decode index hash.encode = .ok hash := by
  refine ⟨exists_between_iff hash, fun found hfound => ?_, fun hfits => ?_, decode_encode index event,
    Checkpoint.decode_encode index checkpoint, ShortHash.decode_encode index hash⟩
  · obtain ⟨hhash, hleads⟩ := between_eq_ok.mp hfound
    exact ⟨hhash, hleads.fits, hleads.apply_eq⟩
  · exact between_eq_ok.mpr ⟨rfl, hfits.leads⟩

/-- The longest move of all, to the second log of the last block there is. -/
theorem LogRecord.between_codec_last_block :
    let prev : Position := ⟨0xFFFFFFFFFFFFFF00, 0xFFFFFFFF⟩
    let next : Position := ⟨0xFFFFFFFFFFFFFFFF, 1⟩
    let event : LogRecord := ⟨255, true, .ofBytes [7]⟩
    event.Fits prev ∧ prev.Near next ∧ between prev next (.ofBytes [7]) = .ok event := by
  intro prev next event
  have hfits : event.Fits prev := ⟨by decide, by decide⟩
  have hcodec := between_codec prev next event (.ofBytes [7]) default 0
  have hbetween : between prev next (.ofBytes [7]) = .ok event := hcodec.2.2.1 hfits
  exact ⟨hfits, hcodec.1.mp ⟨event, hbetween⟩, hbetween⟩

/-- Whether a log at `next` may come directly behind one at `prev`: the next index of its block, or
the first of a later block. Block zero has no logs. -/
def Position.Follows (prev next : Position) : Prop :=
  next.block ≠ 0 ∧
    (next.block = prev.block ∧ prev.index ≠ 0xFFFFFFFF ∧ next.index = prev.index + 1 ∨
      prev.block < next.block ∧ next.index = 0)

instance (prev next : Position) : Decidable (prev.Follows next) :=
  inferInstanceAs (Decidable (_ ∧ _))

namespace Position

theorem index_succ_toNat {index : UInt32} (h : index ≠ 0xFFFFFFFF) :
    (index + 1).toNat = index.toNat + 1 := by
  have hne : index.toNat ≠ 4294967295 := fun he => h (UInt32.toNat_inj.mp he)
  have hlt := index.toNat_lt
  rw [UInt32.toNat_add, UInt32.toNat_one]
  omega

theorem lt_of_block_lt {a b : Position} (h : a.block < b.block) : a < b := by
  have ha := a.index.toNat_lt
  have hb := UInt64.lt_iff_toNat_lt.mp h
  rw [lt_def, rank, rank]
  omega

theorem block_le_of_lt {a b : Position} (h : a < b) : a.block ≤ b.block := by
  refine UInt64.not_lt.mp fun hlt => ?_
  have hba := lt_of_block_lt hlt
  rw [lt_def] at h hba
  omega

theorem Follows.lt {prev next : Position} (h : Follows prev next) : prev < next := by
  rcases h with ⟨-, ⟨hb, hi, hn⟩ | ⟨hb, -⟩⟩
  · rw [lt_def, rank, rank, hb, hn, index_succ_toNat hi]
    omega
  · exact lt_of_block_lt hb

end Position

theorem Position.Follows.near {prev next : Position} (h : prev.Follows next)
    (close : ¬255 < next.block - prev.block) : prev.Near next := by
  rcases h with ⟨-, ⟨hb, hi, hn⟩ | ⟨hb, hn⟩⟩
  · exact .inr (.inl ⟨hb, by rw [hn, index_succ_toNat hi]⟩)
  · have hclose : (next.block - prev.block).toNat ≤ 255 :=
      UInt64.le_iff_toNat_le.mp (UInt64.not_lt.mp close)
    rw [UInt64.toNat_sub_of_le _ _ (UInt64.le_of_lt hb)] at hclose
    exact .inr (.inr ⟨hb, by omega, .inl hn⟩)

/-- A log that follows another within 255 blocks has an event that leads to it. -/
theorem LogRecord.between_of_follows {prev next : Position} (hash : ShortHash)
    (h : prev.Follows next) (near : ¬255 < next.block - prev.block) :
    ∃ event, between prev next hash = .ok event ∧ event.hash = hash ∧
      event.apply prev = next := by
  obtain ⟨event, hok⟩ := (exists_between_iff hash).mpr (h.near near)
  obtain ⟨hhash, hleads⟩ := between_eq_ok.mp hok
  exact ⟨event, hok, hhash, hleads.apply_eq⟩

/-- A log is let in exactly if it may come behind the head. Otherwise it is out of order. -/
theorem LogStore.checkNext_eq (head next : Position) :
    checkNext head next = .ok () ∧ head.Follows next ∨
      (∃ detail, checkNext head next = .error (.logOutOfOrder detail)) ∧ ¬head.Follows next := by
  unfold checkNext
  split
  · rename_i h
    exact .inr ⟨⟨_, rfl⟩, fun hf => hf.1 h⟩
  split
  · rename_i h
    refine .inr ⟨⟨_, rfl⟩, ?_⟩
    rintro ⟨-, ⟨hb, -⟩ | ⟨hb, -⟩⟩
    · exact UInt64.lt_irrefl _ (hb ▸ h)
    · exact UInt64.lt_asymm hb h
  split
  · rename_i h
    refine .inr ⟨⟨_, rfl⟩, ?_⟩
    rintro ⟨-, ⟨-, hi⟩ | ⟨hb, -⟩⟩
    · exact h.2 ⟨hi.1, hi.2.symm⟩
    · exact UInt64.lt_irrefl _ (h.1 ▸ hb)
  split
  · rename_i h
    refine .inr ⟨⟨_, rfl⟩, ?_⟩
    rintro ⟨-, ⟨hb, -⟩ | ⟨-, hi⟩⟩
    · exact UInt64.lt_irrefl _ (hb ▸ h.1)
    · exact h.2 hi
  · rename_i hzero hbehind hsame hlater
    refine .inl ⟨rfl, hzero, ?_⟩
    by_cases hb : next.block = head.block
    · have hi := Classical.not_not.mp fun hi => hsame ⟨hb, hi⟩
      exact .inl ⟨hb, hi.1, hi.2.symm⟩
    · have hlt : head.block < next.block :=
        UInt64.lt_of_le_of_ne (UInt64.not_lt.mp hbehind) fun he => hb he.symm
      exact .inr ⟨hlt, Classical.not_not.mp fun hi => hlater ⟨hlt, hi⟩⟩

end CrossSafety
