import Mathlib.Data.List.Basic
import Dolgate.Base64

set_option autoImplicit false

/-! The phone's upload: a picked file is read and written chunk by chunk, the remote file opened anew
for each. -/

namespace Dolgate.PhoneUpload

abbrev Bytes := List UInt8

/-- A file after a write at `offset`. A gap before it reads as zeros. -/
def writtenAt (old : Bytes) (offset : Nat) (data : Bytes) : Bytes :=
  old.take offset ++ List.replicate (offset - old.length) 0 ++ data ++
    old.drop (offset + data.length)

/-- `WriteChunk`. `none` is a path without a file: the open creates it, and never empties it. -/
def writeChunk (file : Option Bytes) (offset : Nat) (data : Bytes) : Bytes :=
  writtenAt (file.getD []) offset data

structure LocalChunk where
  base64 : List Char
  bytesRead : Nat

def readLocalFileChunk (picked : Bytes) (offset length : Nat) : LocalChunk :=
  let bytes := (picked.drop offset).take length
  ⟨Base64.encode bytes, bytes.length⟩

inductive Status where
  | running
  | completed
  | error
deriving DecidableEq, Repr

structure Upload where
  remote : Option Bytes
  bytesTransferred : Nat
  status : Status
deriving DecidableEq, Repr

structure Failures where
  read : Nat → Bool
  write : Nat → Bool

def completed (remote : Option Bytes) (offset : Nat) : Upload := ⟨remote, offset, .completed⟩

/-- The loop of `uploadSftpFile`; `none` while it has not ended within `fuel` rounds. -/
def uploadFrom (failures : Failures) (picked : Bytes) (chunkSize : Nat) :
    Nat → Option Bytes → Nat → Option Upload
  | 0, _, _ => none
  | fuel + 1, remote, offset =>
    if failures.read offset then some ⟨remote, offset, .error⟩
    else
      let chunk := readLocalFileChunk picked offset chunkSize
      if chunk.bytesRead = 0 then some (completed remote offset)
      else if failures.write offset then some ⟨remote, offset, .error⟩
      else
        let bytes := (Base64.decodeQuanta chunk.base64).getD []
        let remote := some (writeChunk remote offset bytes)
        let offset := offset + chunk.bytesRead
        if chunk.bytesRead < chunkSize then some (completed remote offset)
        else uploadFrom failures picked chunkSize fuel remote offset

def uploadSftpFile (failures : Failures) (picked : Bytes) (chunkSize fuel : Nat)
    (remote : Option Bytes) : Option Upload :=
  uploadFrom failures picked chunkSize fuel remote 0

/-- The first `offset` bytes are those of the picked file, the others those of the old one. -/
def overwritten (picked old : Bytes) (offset : Nat) : Bytes := picked.take offset ++ old.drop offset

theorem overwritten_take {picked old : Bytes} {offset : Nat} (h : offset ≤ picked.length) :
    (overwritten picked old offset).take offset = picked.take offset := by
  rw [overwritten, List.take_append_of_le_length (by simp [h]), List.take_take, Nat.min_self]

theorem overwritten_drop {picked old : Bytes} {offset : Nat} (h : offset ≤ picked.length)
    (more : Nat) : (overwritten picked old offset).drop (offset + more) =
      old.drop (offset + more) := by
  have hlength : (picked.take offset).length = offset := by simp [h]
  rw [overwritten, ← List.drop_drop, List.drop_left' hlength, List.drop_drop]

theorem writtenAt_overwritten {picked old : Bytes} {offset length : Nat}
    (h : offset ≤ picked.length) :
    writtenAt (overwritten picked old offset) offset ((picked.drop offset).take length) =
      overwritten picked old (offset + ((picked.drop offset).take length).length) := by
  have hgap : offset - (overwritten picked old offset).length = 0 := by
    simp only [overwritten, List.length_append, List.length_take]
    omega
  have htake : ((picked.drop offset).take ((picked.drop offset).take length).length) =
      (picked.drop offset).take length := by
    rw [List.length_take, List.take_eq_take_iff]
    omega
  rw [writtenAt, hgap, overwritten_take h, overwritten_drop h, List.replicate_zero,
    List.append_nil, overwritten, List.take_add, htake]

theorem writeChunk_overwritten {picked old : Bytes} {remote : Option Bytes} {offset : Nat}
    (length : Nat) (h : offset ≤ picked.length) (hremote : remote.getD [] = overwritten picked old offset) :
    writeChunk remote offset ((picked.drop offset).take length) =
      overwritten picked old (offset + ((picked.drop offset).take length).length) := by
  rw [writeChunk, hremote, writtenAt_overwritten h]

def Fits (picked : Bytes) (chunkSize : Nat) (remote : Option Bytes) : Prop :=
  if picked = [] ∨ chunkSize = 0 then remote = some picked
  else (remote.getD []).length ≤ picked.length

theorem uploadFrom_result {failures : Failures} {picked old : Bytes} {chunkSize fuel : Nat}
    {remote : Option Bytes} {offset : Nat} {u : Upload} (h : offset ≤ picked.length)
    (hremote : remote.getD [] = overwritten picked old offset)
    (hrun : uploadFrom failures picked chunkSize fuel remote offset = some u)
    (hdone : u.status = .completed) (hsize : chunkSize ≠ 0) :
    u.remote.getD [] = overwritten picked old picked.length ∧
      u.bytesTransferred = picked.length ∧
      (u.remote = none → remote = none ∧ offset = picked.length) := by
  induction fuel generalizing remote offset with
  | zero => cases hrun
  | succ fuel ih =>
    simp only [uploadFrom, readLocalFileChunk, Base64.decodeQuanta_encode, Option.getD_some]
      at hrun
    have hlength : ((picked.drop offset).take chunkSize).length =
        min chunkSize (picked.length - offset) := by simp
    have hnext := writeChunk_overwritten chunkSize h hremote
    generalize hbytes : (picked.drop offset).take chunkSize = bytes at *
    split at hrun
    · obtain rfl := Option.some.inj hrun
      cases hdone
    · split at hrun
      · obtain rfl := Option.some.inj hrun
        have hend : offset = picked.length := by omega
        subst hend
        exact ⟨hremote, rfl, fun hnone => ⟨hnone, rfl⟩⟩
      · split at hrun
        · obtain rfl := Option.some.inj hrun
          cases hdone
        · split at hrun
          · obtain rfl := Option.some.inj hrun
            have hend : offset + bytes.length = picked.length := by omega
            rw [hend] at hnext
            exact ⟨by simpa [completed] using hnext, hend, by simp [completed]⟩
          · have hrest := @ih (some (writeChunk remote offset bytes))
              (offset + bytes.length) (by omega) hnext hrun
            exact ⟨hrest.1, hrest.2.1, fun hnone => by cases (hrest.2.2 hnone).1⟩

theorem uploadFrom_total (failures : Failures) (picked : Bytes) (chunkSize : Nat)
    {fuel offset : Nat} (remote : Option Bytes) (h : offset ≤ picked.length)
    (hfuel : picked.length < fuel + offset) :
    ∃ u, uploadFrom failures picked chunkSize fuel remote offset = some u := by
  induction fuel generalizing remote offset with
  | zero => omega
  | succ fuel ih =>
    simp only [uploadFrom, readLocalFileChunk, List.length_take, List.length_drop]
    split
    · exact ⟨_, rfl⟩
    · split
      · exact ⟨_, rfl⟩
      · split
        · exact ⟨_, rfl⟩
        · split
          · exact ⟨_, rfl⟩
          · exact ih _ (by omega) (by omega)

theorem uploadFrom_nothing {failures : Failures} {picked : Bytes} {chunkSize fuel : Nat}
    {remote : Option Bytes} {u : Upload} (h : picked = [] ∨ chunkSize = 0)
    (hrun : uploadFrom failures picked chunkSize fuel remote 0 = some u) : u.remote = remote := by
  cases fuel with
  | zero => cases hrun
  | succ fuel =>
    have hempty : picked.take chunkSize = [] := by
      rcases h with rfl | rfl <;> simp
    simp only [uploadFrom, readLocalFileChunk, List.drop_zero, hempty, List.length_nil, if_true]
      at hrun
    split at hrun
    · rw [← Option.some.inj hrun]
    · rw [← Option.some.inj hrun, completed]

/-- An upload ends, and a completed one has left the picked file exactly where the old file was
not longer, and existed already if there was nothing to write. -/
theorem upload_completed_iff (failures : Failures) (picked : Bytes) (chunkSize : Nat)
    (remote : Option Bytes) :
    (∃ fuel u, uploadSftpFile failures picked chunkSize fuel remote = some u) ∧
      ∀ fuel u, uploadSftpFile failures picked chunkSize fuel remote = some u →
        u.status = .completed → (u.remote = some picked ↔ Fits picked chunkSize remote) := by
  refine ⟨⟨picked.length + 1, uploadFrom_total failures picked chunkSize remote (Nat.zero_le _)
    (by omega)⟩, fun fuel u hrun hdone => ?_⟩
  unfold Fits
  split
  · next hnothing => rw [uploadFrom_nothing hnothing hrun]
  · next hsome =>
    rw [not_or] at hsome
    have hstart : remote.getD [] = overwritten picked (remote.getD []) 0 := by simp [overwritten]
    obtain ⟨hend, -, hnone⟩ :=
      uploadFrom_result (Nat.zero_le _) hstart hrun hdone hsome.2
    rw [overwritten, List.take_length] at hend
    cases hremote : u.remote with
    | none =>
      have hempty := (hnone hremote).2
      exact absurd (List.eq_nil_of_length_eq_zero hempty.symm) hsome.1
    | some content =>
      rw [hremote, Option.getD_some] at hend
      rw [hend, Option.some.injEq, List.append_right_eq_self, List.drop_eq_nil_iff]

/-- The end of a longer file stays behind the picked one, and an empty file is not made. -/
theorem completed_upload_differs :
    (∃ fuel u, uploadSftpFile ⟨fun _ => false, fun _ => false⟩ [1] 4 fuel (some [7, 8]) = some u ∧
      u.status = .completed ∧ u.remote = some [1, 8]) ∧
    ∃ fuel u, uploadSftpFile ⟨fun _ => false, fun _ => false⟩ [] 4 fuel none = some u ∧
      u.status = .completed ∧ u.remote = none :=
  ⟨⟨1, _, rfl, rfl, rfl⟩, ⟨1, _, rfl, rfl, rfl⟩⟩

end Dolgate.PhoneUpload
