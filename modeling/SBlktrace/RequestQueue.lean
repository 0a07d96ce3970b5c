import SBlktrace.BttIostat

namespace SBlktrace

structure QueueIo where
  sector : UInt64
  bytes : UInt32
  deriving DecidableEq

structure BlkRequest where
  ios : List QueueIo
  sector : UInt64
  bytes : UInt32
  issued : Bool

structure RequestQueue where
  waiting : List QueueIo
  requests : List BlkRequest

inductive RequestEvent where
  | queue
  | getrq
  | backmerge (i : ℕ)
  | frontmerge (i : ℕ)
  | insert (i : ℕ)
  | issue (i : ℕ)
  | requeue (i : ℕ)
  | complete (i : ℕ)
  | other

def QueueIo.of (t : BlkIoTraceRecord) : QueueIo where
  sector := t.sector
  bytes := t.bytes

namespace RequestQueue

open DInfo

def empty : RequestQueue where
  waiting := []
  requests := []

def inFlight (q : RequestQueue) : List QueueIo := q.waiting ++ q.requests.flatMap BlkRequest.ios

def absorb (q : RequestQueue) (io : QueueIo) (i : ℕ) (r : BlkRequest) : RequestQueue where
  waiting := q.waiting.erase io
  requests := q.requests.set i r

def next (q : RequestQueue) (event : RequestEvent) (t : BlkIoTraceRecord) : Option RequestQueue :=
  match event with
  | .queue =>
    if kind t = blkTaQueue then some { q with waiting := q.waiting ++ [.of t] } else none
  | .getrq =>
    if kind t = blkTaGetrq ∧ .of t ∈ q.waiting then
      some {
        waiting := q.waiting.erase (.of t)
        requests := q.requests ++
          [{ ios := [.of t], sector := t.sector, bytes := t.bytes, issued := false }] }
    else none
  | .backmerge i =>
    q.requests[i]?.bind fun r =>
      if kind t = blkTaBackmerge ∧ r.issued = false ∧ .of t ∈ q.waiting ∧
          t.sector = r.sector + (r.bytes >>> 9).toUInt64 then
        some (q.absorb (.of t) i { r with ios := r.ios ++ [.of t], bytes := r.bytes + t.bytes })
      else none
  | .frontmerge i =>
    q.requests[i]?.bind fun r =>
      if kind t = blkTaFrontmerge ∧ r.issued = false ∧ .of t ∈ q.waiting ∧
          t.sector + t.tSec.toUInt64 = r.sector then
        some (q.absorb (.of t) i
          { r with ios := r.ios ++ [.of t], sector := t.sector, bytes := r.bytes + t.bytes })
      else none
  | .insert i =>
    q.requests[i]?.bind fun r =>
      if kind t = blkTaInsert ∧ r.issued = false ∧ t.sector = r.sector ∧ t.bytes = r.bytes then
        some q
      else none
  | .issue i =>
    q.requests[i]?.bind fun r =>
      if kind t = blkTaIssue ∧ r.issued = false ∧ t.sector = r.sector ∧ t.bytes = r.bytes then
        some { q with requests := q.requests.set i { r with issued := true } }
      else none
  | .requeue i =>
    q.requests[i]?.bind fun r =>
      if kind t = blkTaRequeue ∧ r.issued = true ∧ t.sector = r.sector ∧ t.bytes = r.bytes then
        some { q with requests := q.requests.set i { r with issued := false } }
      else none
  | .complete i =>
    q.requests[i]?.bind fun r =>
      if kind t = blkTaComplete ∧ r.issued = true ∧ t.sector = r.sector ∧ t.bytes = r.bytes then
        some { q with requests := q.requests.eraseIdx i }
      else none
  | .other =>
    if t.has blkTcNotify = true ∨ kind t ∉ [blkTaQueue, blkTaGetrq, blkTaBackmerge, blkTaFrontmerge,
        blkTaInsert, blkTaIssue, blkTaRequeue, blkTaComplete] then
      some q
    else none

end RequestQueue

section Requests

variable {l : List BlkRequest} {r : BlkRequest} {i : ℕ}

theorem exists_split (h : l[i]? = some r) :
    ∃ before after, l = before ++ r :: after ∧ (∀ r', l.set i r' = before ++ r' :: after) ∧
      l.eraseIdx i = before ++ after := by
  obtain ⟨hi, rfl⟩ := List.getElem?_eq_some_iff.mp h
  refine ⟨l.take i, l.drop (i + 1), ?_, fun r' => ?_, List.eraseIdx_eq_take_drop_succ l i⟩
  · rw [List.getElem_cons_drop, List.take_append_drop]
  · rw [List.set_eq_take_append_cons_drop, if_pos hi]

theorem countP_set (h : l[i]? = some r) (r' : BlkRequest) :
    (l.set i r').countP BlkRequest.issued + (if r.issued then 1 else 0) =
      l.countP BlkRequest.issued + if r'.issued then 1 else 0 := by
  obtain ⟨before, after, hsplit, hset, -⟩ := exists_split h
  rw [hset, hsplit]
  simp only [List.countP_append, List.countP_cons]
  omega

theorem countP_eraseIdx (h : l[i]? = some r) :
    (l.eraseIdx i).countP BlkRequest.issued + (if r.issued then 1 else 0) =
        l.countP BlkRequest.issued ∧
      (l.eraseIdx i).length + 1 = l.length := by
  obtain ⟨before, after, hsplit, -, herase⟩ := exists_split h
  rw [herase, hsplit]
  simp only [List.countP_append, List.countP_cons, List.length_append, List.length_cons]
  exact ⟨by omega, by omega⟩

end Requests

structure BttStats.Balanced (q : RequestQueue) (s : BttStats) : Prop where
  curDev : s.curDev = q.requests.countP BlkRequest.issued
  curQusz : s.curQusz = q.requests.length
  nonneg : 0 ≤ s.curDev ∧ 0 ≤ s.curQusz
  idle : q.requests = [] → s.curDev = 0 ∧ s.curQusz = 0

theorem balanced_iff_counts {q : RequestQueue} {s : BttStats} :
    s.Balanced q ↔ s.curDev = q.requests.countP BlkRequest.issued ∧
      s.curQusz = q.requests.length := by
  refine ⟨fun h => ⟨h.curDev, h.curQusz⟩, fun ⟨hdev, hqusz⟩ => ⟨hdev, hqusz, ?_, fun hnil => ?_⟩⟩
  · omega
  · rw [hnil] at hdev hqusz
    exact ⟨hdev, hqusz⟩

namespace QueueIo

def start (io : QueueIo) : ℕ := io.sector.toNat

def stop (io : QueueIo) : ℕ := (io.sector + (io.bytes >>> 9).toUInt64).toNat

end QueueIo

end SBlktrace
