import SBlktrace.DoublyLinked
import Mathlib

namespace SBlktrace

open Function DoublyLinked

/-- A `cache_entry_t`: entries of one bucket are named by their index in its array, and
`ceData` is the address of the buffer allocated for the entry. -/
structure CacheEntry where
  ceIdx : UInt32
  ceNext : Option ℕ
  cePrev : Option ℕ
  ceData : ℕ

structure CacheHeader where
  ch : ℕ → CacheEntry
  chUsed : Option ℕ
  chTail : Option ℕ
  chFree : Option ℕ

structure Cache (δ : Type) where
  cCh : ℕ → CacheHeader
  cNcache : ℕ
  cLink : ℕ
  cMissCount : UInt32
  cHitCount : UInt32
  cThrashCount : UInt32
  heap : ℕ → δ

namespace CacheHeader

def next (h : CacheHeader) (e : ℕ) : Option ℕ := (h.ch e).ceNext

def prev (h : CacheHeader) (e : ℕ) : Option ℕ := (h.ch e).cePrev

def idx (h : CacheHeader) (e : ℕ) : UInt32 := (h.ch e).ceIdx

def data (h : CacheHeader) (e : ℕ) : ℕ := (h.ch e).ceData

def setNext (h : CacheHeader) (e : ℕ) (v : Option ℕ) : CacheHeader :=
  { h with ch := update h.ch e { h.ch e with ceNext := v } }

def setPrev (h : CacheHeader) (e : ℕ) (v : Option ℕ) : CacheHeader :=
  { h with ch := update h.ch e { h.ch e with cePrev := v } }

def setIdx (h : CacheHeader) (e : ℕ) (idx : UInt32) : CacheHeader :=
  { h with ch := update h.ch e { h.ch e with ceIdx := idx } }

def setUsed (h : CacheHeader) (v : Option ℕ) : CacheHeader := { h with chUsed := v }

def setTail (h : CacheHeader) (v : Option ℕ) : CacheHeader := { h with chTail := v }

def setFree (h : CacheHeader) (v : Option ℕ) : CacheHeader := { h with chFree := v }

end CacheHeader

/-- The array of a fresh bucket; `raw` is what `malloc` left in it, `base` the address of the
first of the `link` buffers allocated for it. -/
def initCacheHeader (raw : ℕ → CacheEntry) (base link : ℕ) : CacheHeader where
  ch i :=
    if i = link - 1 then
      { raw i with ceNext := none, cePrev := some (link - 2), ceData := base + i }
    else if i = 0 then
      { raw i with ceNext := some 1, cePrev := none, ceData := base + i }
    else if i < link - 1 then
      { raw i with ceNext := some (i + 1), cePrev := some (i - 1), ceData := base + i }
    else raw i
  chUsed := none
  chTail := none
  chFree := some 0

def initCache {δ : Type} (raw : ℕ → ℕ → CacheEntry) (heap : ℕ → δ) (ncache link : ℕ) :
    Cache δ where
  cCh k := initCacheHeader (raw k) (k * link) link
  cNcache := ncache
  cLink := link
  cMissCount := 0
  cHitCount := 0
  cThrashCount := 0
  heap := heap

def removeCacheEntry (h : CacheHeader) (entry : ℕ) : CacheHeader :=
  let h := match h.prev entry with
    | some p => h.setNext p (h.next entry)
    | none => h.setUsed (h.next entry)
  let h := match h.next entry with
    | some q => h.setPrev q (h.prev entry)
    | none => h.setTail (h.prev entry)
  let h := match h.chFree with
    | some f => h.setPrev f (some entry)
    | none => h
  let h := h.setNext entry h.chFree
  let h := h.setFree (some entry)
  h.setPrev entry none

def insertCacheEntry (h : CacheHeader) (idx : UInt32) : CacheHeader × Option ℕ :=
  match h.chFree with
  | none => (h, none)
  | some entry =>
    let h := h.setFree (h.next entry)
    let h := match h.chFree with
      | some f => h.setPrev f none
      | none => h
    let h := h.setNext entry h.chUsed
    let h := match h.chUsed with
      | some u => h.setPrev u (some entry)
      | none => h.setTail (some entry)
    let h := h.setUsed (some entry)
    (h.setIdx entry idx, some entry)

/-- The `while` loop of `lookup_cache`; the outer `none` is a walk that never ends. -/
def CacheHeader.lookupFrom (h : CacheHeader) (idx : UInt32) (entry : Option ℕ) :
    Option (Option ℕ) :=
  match entry with
  | none => some none
  | some e => if h.idx e = idx then some (some e) else h |>.lookupFrom idx (h.next e)
partial_fixpoint

def moveToFront (h : CacheHeader) (entry : ℕ) : CacheHeader :=
  match h.prev entry with
  | none => h
  | some p =>
    let h := h.setNext p (h.next entry)
    let h := match h.next entry with
      | some q => h.setPrev q (h.prev entry)
      | none => h.setTail (h.prev entry)
    let h := match h.chUsed with
      | some u => h.setPrev u (some entry)
      | none => h
    let h := h.setNext entry h.chUsed
    let h := h.setPrev entry none
    h.setUsed (some entry)

namespace Cache

variable {δ : Type}

def bucket (c : Cache δ) (idx : UInt32) : ℕ := idx.toNat % c.cNcache

def setHeader (c : Cache δ) (k : ℕ) (h : CacheHeader) : Cache δ :=
  { c with cCh := update c.cCh k h }

def lookupCache (c : Cache δ) (idx : UInt32) : Option (Option ℕ) :=
  (c.cCh (c.bucket idx)).lookupFrom idx (c.cCh (c.bucket idx)).chUsed

def ceData (c : Cache δ) (idx : UInt32) (entry : ℕ) : δ :=
  c.heap ((c.cCh (c.bucket idx)).data entry)

def memcpy (c : Cache δ) (k entry : ℕ) (buf : δ) : Cache δ :=
  { c with heap := update c.heap ((c.cCh k).data entry) buf }

def insertAndCopy (c : Cache δ) (k : ℕ) (idx : UInt32) (buf : δ) : Cache δ × Option ℕ :=
  match insertCacheEntry (c.cCh k) idx with
  | (h, some entry) => ((c.setHeader k h).memcpy k entry buf, some entry)
  | (h, none) => (c.setHeader k h, none)

def encache (c : Cache δ) (idx : UInt32) (buf : δ) : Option (Cache δ × Option ℕ) :=
  if c.cNcache = 0 then some (c, none) else do
    let k := c.bucket idx
    let entry ← c.lookupCache idx
    match entry with
    | some entry =>
      let c := c.setHeader k (moveToFront (c.cCh k) entry)
      some (c.memcpy k entry buf, some entry)
    | none =>
      match (c.cCh k).chFree, (c.cCh k).chTail with
      | none, none => some (c, none)
      | none, some t =>
        let c := c.setHeader k (removeCacheEntry (c.cCh k) t)
        let c := { c with cThrashCount := c.cThrashCount + 1 }
        some (c.insertAndCopy k idx buf)
      | some _, _ => some (c.insertAndCopy k idx buf)

def decache (c : Cache δ) (idx : UInt32) : Option (Cache δ × Option ℕ) := do
  let entry ← c.lookupCache idx
  if c.cNcache = 0 then some (c, none) else
  match entry with
  | some e => some (c.setHeader (c.bucket idx) (removeCacheEntry (c.cCh (c.bucket idx)) e), some e)
  | none => some (c, none)

end Cache

end SBlktrace
