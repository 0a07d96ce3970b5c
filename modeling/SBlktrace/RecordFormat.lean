import SBlktrace.ByteOrder
import SBlktrace.ReplayIo

namespace SBlktrace

open ByteOrder

structure IoFileHdr where
  version : UInt64
  genesis : UInt64
  nbunches : UInt64
  totalPkts : UInt64
  deriving DecidableEq

def mkBtversion (mjr mnr sub : UInt64) : UInt64 :=
  ((mjr &&& 0xff) <<< 16) ||| ((mnr &&& 0xff) <<< 8) ||| (sub &&& 0xff)

def myBtversion : UInt64 := mkBtversion 1 0 0

def numberAt (e : Endian) (l : List ℕ) (offset size : ℕ) : ℕ := value e ((l.drop offset).take size)

namespace IoFileHdr

def size : ℕ := 32

def bytes (e : Endian) (hdr : IoFileHdr) : List ℕ :=
  image e 8 hdr.version.toNat ++ image e 8 hdr.genesis.toNat ++ image e 8 hdr.nbunches.toNat ++
    image e 8 hdr.totalPkts.toNat

def ofBytes (e : Endian) (l : List ℕ) : IoFileHdr where
  version := UInt64.ofNat (numberAt e l 0 8)
  genesis := UInt64.ofNat (numberAt e l 8 8)
  nbunches := UInt64.ofNat (numberAt e l 16 8)
  totalPkts := UInt64.ofNat (numberAt e l 24 8)

@[simp] theorem bytes_length (e : Endian) (hdr : IoFileHdr) : (hdr.bytes e).length = size := by
  simp [bytes, size]

theorem ofBytes_bytes (e : Endian) (hdr : IoFileHdr) (rest : List ℕ) :
    ofBytes e (hdr.bytes e ++ rest) = hdr := by
  simp [ofBytes, bytes, numberAt, List.drop_append, List.drop_of_length_le,
    value_image]

end IoFileHdr

namespace IoPkt

def size : ℕ := 24

def bytes (e : Endian) (pkt : IoPkt) : List ℕ :=
  image e 8 pkt.sector.toNat ++ image e 8 pkt.nbytes.toNat ++ image e 4 pkt.rw.toNat ++ [0, 0, 0, 0]

def ofBytes (e : Endian) (l : List ℕ) : IoPkt where
  sector := UInt64.ofNat (numberAt e l 0 8)
  nbytes := UInt64.ofNat (numberAt e l 8 8)
  rw := UInt32.ofNat (numberAt e l 16 4)

@[simp] theorem bytes_length (e : Endian) (pkt : IoPkt) : (pkt.bytes e).length = size := by
  simp [bytes, size]

theorem ofBytes_bytes (e : Endian) (pkt : IoPkt) (rest : List ℕ) :
    ofBytes e (pkt.bytes e ++ rest) = pkt := by
  simp [ofBytes, bytes, numberAt, List.drop_append, List.drop_of_length_le,
    value_image]

end IoPkt

namespace IoBunch

def hdrSize : ℕ := 16

def hdrBytes (e : Endian) (bunch : IoBunch) : List ℕ :=
  image e 8 bunch.pkts.length ++ image e 8 bunch.timeStamp.toNat

def bytes (e : Endian) (bunch : IoBunch) : List ℕ :=
  bunch.hdrBytes e ++ bunch.pkts.flatMap (·.bytes e)

@[simp] theorem hdrBytes_length (e : Endian) (bunch : IoBunch) :
    (bunch.hdrBytes e).length = hdrSize := by
  simp [hdrBytes, hdrSize]

end IoBunch

def readPkts (e : Endian) : ℕ → List ℕ → List IoPkt
  | 0, _ => []
  | n + 1, l => IoPkt.ofBytes e l :: readPkts e n (l.drop IoPkt.size)

/-- `none` where the program stops, `some none` at the end of the file. -/
def nextBunch (e : Endian) (l : List ℕ) : Option (Option (IoBunch × List ℕ)) :=
  if l.length < IoBunch.hdrSize then
    if l = [] then some none else none
  else
    let npkts := numberAt e l 0 8
    if BT_MAX_PKTS < npkts then none
    else
      let rest := l.drop IoBunch.hdrSize
      if rest.length < npkts * IoPkt.size then none
      else
        some (some
          ({ timeStamp := UInt64.ofNat (numberAt e l 8 8), pkts := readPkts e npkts rest },
            rest.drop (npkts * IoPkt.size)))

def readBunches (e : Endian) : ℕ → List ℕ → Option (List IoBunch)
  | 0, _ => none
  | fuel + 1, l =>
    match nextBunch e l with
    | none => none
    | some none => some []
    | some (some (bunch, rest)) => (readBunches e fuel rest).map (bunch :: ·)

/-- What becomes of an input file: `none` where the program stops, `some none` where the file is
left out as empty, and else the earliest time seen so far. -/
def addInputFile (e : Endian) (genesis : UInt64) (file : List ℕ) : Option (Option UInt64) :=
  if file.length < IoFileHdr.size then some none
  else
    let hdr := IoFileHdr.ofBytes e file
    if hdr.version ≠ myBtversion then none
    else if hdr.nbunches = 0 then some none
    else some (some (if hdr.genesis < genesis then hdr.genesis else genesis))

def replayFile (e : Endian) (genesis : UInt64) (file : List ℕ) : Option (List IoBunch) :=
  match addInputFile e genesis file with
  | none => none
  | some none => some []
  | some (some _) => readBunches e (file.length + 1) (file.drop IoFileHdr.size)

variable {e : Endian}

theorem readPkts_flatMap (pkts : List IoPkt) (rest : List ℕ) :
    readPkts e pkts.length (pkts.flatMap (·.bytes e) ++ rest) = pkts := by
  induction pkts with
  | nil => rfl
  | cons pkt pkts ih =>
    rw [List.length_cons, readPkts, List.flatMap_cons, List.append_assoc, IoPkt.ofBytes_bytes,
      ← IoPkt.bytes_length e pkt, List.drop_left, ih]

theorem flatMap_bytes_length (pkts : List IoPkt) :
    (pkts.flatMap (·.bytes e)).length = pkts.length * IoPkt.size := by
  induction pkts with
  | nil => exact (Nat.zero_mul _).symm
  | cons pkt pkts ih =>
    rw [List.flatMap_cons, List.length_append, ih, IoPkt.bytes_length, List.length_cons,
      Nat.succ_mul, Nat.add_comm]

theorem numberAt_npkts (bunch : IoBunch) (hlen : bunch.pkts.length ≤ BT_MAX_PKTS)
    (rest : List ℕ) : numberAt e (bunch.bytes e ++ rest) 0 8 = bunch.pkts.length := by
  have hlt : bunch.pkts.length < 18446744073709551616 := hlen.trans_lt (by decide)
  simp [numberAt, IoBunch.bytes, IoBunch.hdrBytes, value_image, hlt]

theorem numberAt_timeStamp (bunch : IoBunch) (rest : List ℕ) :
    UInt64.ofNat (numberAt e (bunch.bytes e ++ rest) 8 8) = bunch.timeStamp := by
  simp [numberAt, IoBunch.bytes, IoBunch.hdrBytes, value_image]

theorem nextBunch_bytes (bunch : IoBunch) (hlen : bunch.pkts.length ≤ BT_MAX_PKTS)
    (rest : List ℕ) : nextBunch e (bunch.bytes e ++ rest) = some (some (bunch, rest)) := by
  have hdrop : (bunch.bytes e ++ rest).drop IoBunch.hdrSize =
      bunch.pkts.flatMap (·.bytes e) ++ rest := by
    rw [IoBunch.bytes, List.append_assoc, ← IoBunch.hdrBytes_length e bunch, List.drop_left]
  have hsize : ¬ (bunch.bytes e ++ rest).length < IoBunch.hdrSize := by
    rw [IoBunch.bytes, List.append_assoc, List.length_append, IoBunch.hdrBytes_length]
    omega
  have hrest : ¬ (bunch.pkts.flatMap (·.bytes e) ++ rest).length <
      bunch.pkts.length * IoPkt.size := by
    rw [List.length_append, flatMap_bytes_length]
    omega
  rw [nextBunch, if_neg hsize]
  simp only [numberAt_npkts bunch hlen rest, numberAt_timeStamp, hdrop]
  rw [if_neg (by omega), if_neg hrest, readPkts_flatMap, ← flatMap_bytes_length, List.drop_left]

theorem readBunches_bytes (bunches : List IoBunch)
    (hlen : ∀ bunch ∈ bunches, bunch.pkts.length ≤ BT_MAX_PKTS) {fuel : ℕ}
    (hfuel : bunches.length < fuel) :
    readBunches e fuel (bunches.flatMap (·.bytes e)) = some bunches := by
  induction bunches generalizing fuel with
  | nil =>
    obtain ⟨fuel, rfl⟩ := Nat.exists_eq_add_of_lt hfuel
    rfl
  | cons bunch bunches ih =>
    obtain ⟨fuel, rfl⟩ := Nat.exists_eq_succ_of_ne_zero (Nat.ne_zero_of_lt hfuel)
    rw [List.flatMap_cons, readBunches, nextBunch_bytes bunch (hlen bunch List.mem_cons_self)]
    dsimp only
    rw [ih (fun b hb => hlen b (List.mem_cons_of_mem _ hb)) (Nat.lt_of_succ_lt_succ hfuel)]
    rfl

theorem bunches_length_le (bunches : List IoBunch) :
    bunches.length ≤ (bunches.flatMap (·.bytes e)).length := by
  induction bunches with
  | nil => exact Nat.le_refl _
  | cons bunch bunches ih =>
    rw [List.flatMap_cons, List.length_append, List.length_cons, IoBunch.bytes, List.length_append,
      IoBunch.hdrBytes_length, IoBunch.hdrSize]
    omega

theorem addInputFile_bytes (genesis : UInt64) (hdr : IoFileHdr)
    (hversion : hdr.version = myBtversion) (body : List ℕ) :
    addInputFile e genesis (hdr.bytes e ++ body) =
      if hdr.nbunches = 0 then some none
      else some (some (if hdr.genesis < genesis then hdr.genesis else genesis)) := by
  have hsize : ¬ (hdr.bytes e ++ body).length < IoFileHdr.size := by
    rw [List.length_append, IoFileHdr.bytes_length]
    omega
  rw [addInputFile, if_neg hsize]
  simp only [IoFileHdr.ofBytes_bytes]
  rw [if_neg (not_not_intro hversion)]

theorem replayFile_bytes (genesis : UInt64) (hdr : IoFileHdr) (hversion : hdr.version = myBtversion)
    (bunches : List IoBunch) (hlen : ∀ bunch ∈ bunches, bunch.pkts.length ≤ BT_MAX_PKTS) :
    replayFile e genesis (hdr.bytes e ++ bunches.flatMap (·.bytes e)) =
      some (if hdr.nbunches = 0 then [] else bunches) := by
  rw [replayFile, addInputFile_bytes genesis hdr hversion]
  by_cases hzero : hdr.nbunches = 0
  · rw [if_pos hzero, if_pos hzero]
  · rw [if_neg hzero, if_neg hzero]
    dsimp only
    have hdrop : (hdr.bytes e ++ bunches.flatMap (·.bytes e)).drop IoFileHdr.size =
        bunches.flatMap (·.bytes e) := by
      rw [← IoFileHdr.bytes_length e hdr, List.drop_left]
    rw [hdrop]
    apply readBunches_bytes bunches hlen
    have hle := @bunches_length_le e bunches
    rw [List.length_append]
    omega

end SBlktrace
