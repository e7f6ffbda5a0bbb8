import Tornet.Cafs.ReadBack
import Tornet.Chunk.Service

/-! How `chunk_service::download_chunk` ends, whatever the search finds and the hosts answer. -/
namespace Tornet.Chunk
open Cafs

/-- What the search for a chunk comes to: an exception, or the hosting nodes by their distance. -/
inductive Search where
  | threw | found (hosts : List Sha1)
  deriving DecidableEq, Repr

/-- `chunk_service::download_chunk` with its search, and what comes of asking each node. -/
def download (L : Lib) (disk : Disk) (id : Sha1) (search : Search) (ask : Sha1 → Answer) : Download :=
  match search with
  | .threw => ((fetchChunk L disk id).map Download.returned).getD .threw
  | .found hosts => downloadChunk L disk id (hosts.map ask)

/-- The end of a download is an exception, or bytes with the hash or from the local store. -/
def Settled (L : Lib) (disk : Disk) (id : Sha1) : Download → Prop
  | .returned data => L.sha1 data = id ∨ fetchChunk L disk id = some data
  | .threw => True
  | .noValue => False

/-- The loop does not go on to the next host: there is no client for this one, or its data is the chunk. -/
def Answer.Ends (L : Lib) (id : Sha1) : Answer → Prop
  | .unreachable => True
  | .failed => False
  | .reply data => L.sha1 data = id

variable {L : Lib} {disk : Disk} {id : Sha1}

/-- The loop has a value or an exception exactly if it does not go past the last host. -/
theorem askHosts_settled_iff (answers : List Answer) :
    Settled L disk id (askHosts L id answers) ↔ ∃ a ∈ answers, a.Ends L id := by
  induction answers with
  | nil => simp [askHosts, Settled]
  | cons a rest ih =>
    rw [List.exists_mem_cons_iff]
    cases a with
    | unreachable => exact iff_of_true trivial (.inl trivial)
    | failed => exact ih.trans (or_iff_right fun h => h).symm
    | reply data =>
      rw [askHosts]
      split_ifs with hid
      · exact iff_of_true (.inl hid) (.inl hid)
      · exact ih.trans (or_iff_right hid).symm

/-- A download ends with verified bytes or an exception exactly if the chunk is at hand, the search throws, or one of
the hosts found has no client or answers with the chunk. -/
theorem download_settled_iff (L : Lib) (disk : Disk) (id : Sha1) (search : Search) (ask : Sha1 → Answer) :
    Settled L disk id (download L disk id search ask) ↔
      (fetchChunk L disk id).isSome = true ∨ search = .threw ∨
        ∃ hosts, search = .found hosts ∧ ∃ node ∈ hosts, (ask node).Ends L id := by
  cases hlocal : fetchChunk L disk id with
  | some data =>
    have hreturned : download L disk id search ask = .returned data := by
      cases search <;> simp [download, downloadChunk, hlocal]
    rw [hreturned]
    exact iff_of_true (.inr hlocal) (.inl rfl)
  | none =>
    rw [Option.isSome_none, or_iff_right Bool.false_ne_true]
    cases search with
    | threw =>
      rw [download, hlocal]
      exact iff_of_true trivial (.inl rfl)
    | found hosts =>
      rw [download, downloadChunk, hlocal]
      rw [askHosts_settled_iff]
      simp

/-- A search that finds no host leaves the download without a value and without an exception. -/
theorem download_unfound : ¬ ∀ (L : Lib) (disk : Disk) (id : Sha1) (search : Search) (ask : Sha1 → Answer),
    Settled L disk id (download L disk id search ask) := by
  intro h
  exact h smallLib {} 7 (.found []) fun _ => .failed

end Tornet.Chunk
