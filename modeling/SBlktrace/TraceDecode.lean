import Mathlib
import SBlktrace.BaseIntro
import SBlktrace.BlkTrace
import SBlktrace.ByteOrder

namespace SBlktrace

open ByteOrder

structure BlkIoTraceRecord extends BlkIoTrace where
  sector : UInt64
  bytes : UInt32
  pid : UInt32
  error : UInt16
  vecCount : UInt16
  seq : UInt32
  pduLen : UInt16
deriving DecidableEq

def bswap16 (x : UInt16) : UInt16 := UInt16.ofNat (swap 2 x.toNat)

def bswap32 (x : UInt32) : UInt32 := UInt32.ofNat (swap 4 x.toNat)

def bswap64 (x : UInt64) : UInt64 := UInt64.ofNat (swap 8 x.toNat)

def be16ToCpu : Endian → UInt16 → UInt16
  | .little, x => bswap16 x
  | .big, x => x

def be32ToCpu : Endian → UInt32 → UInt32
  | .little, x => bswap32 x
  | .big, x => x

def be64ToCpu : Endian → UInt64 → UInt64
  | .little, x => bswap64 x
  | .big, x => x

/-- `be16_to_cpu` of a 32-bit value: `__bswap_16` takes its low 16 bits, the empty macro of a
big-endian machine takes all of it. -/
def be16ToCpu32 : Endian → UInt32 → UInt32
  | .little, x => (bswap16 x.toUInt16).toUInt32
  | .big, x => x

def checkDataEndianness (magic : UInt32) (dataIsNative : ℤ) : ℤ × ℤ :=
  if magic &&& 0xffffff00 = blkIoTraceMagic then (1, 0)
  else if bswap32 magic &&& 0xffffff00 = blkIoTraceMagic then (0, 0)
  else (dataIsNative, 1)

def traceToCpu (host : Endian) (dataIsNative : ℤ) (t : BlkIoTraceRecord) : BlkIoTraceRecord :=
  if dataIsNative ≠ 0 then t
  else
    { t with
      magic := be32ToCpu host t.magic
      sequence := be32ToCpu host t.sequence
      time := be64ToCpu host t.time
      sector := be64ToCpu host t.sector
      bytes := be32ToCpu host t.bytes
      action := be32ToCpu host t.action
      pid := be32ToCpu host t.pid
      device := be32ToCpu host t.device
      cpu := be32ToCpu host t.cpu
      error := be16ToCpu host t.error
      pduLen := be16ToCpu host t.pduLen }

def sizeofTrace : ℕ := 56

structure Converted where
  dataIsNative : ℤ
  tp : BlkIoTraceRecord
  pdu : Option (List UInt8)
  size : ℕ

/-- `convert_to_cpu` of `btt`: `payload` is what follows `t`, `tp` what the record to fill holds. -/
def convertToCpu (host : Endian) (dataIsNative : ℤ) (t : BlkIoTraceRecord) (payload : Buf)
    (tp : BlkIoTraceRecord) : Converted :=
  let native :=
    if dataIsNative = -1 then (checkDataEndianness t.magic dataIsNative).1 else dataIsNative
  let tp :=
    if native ≠ 0 then t
    else
      { tp with
        magic := be32ToCpu host t.magic
        sequence := be32ToCpu host t.sequence
        time := be64ToCpu host t.time
        sector := be64ToCpu host t.sector
        bytes := be32ToCpu host t.bytes
        action := be32ToCpu host t.action
        pid := be32ToCpu host t.pid
        device := be32ToCpu host t.device
        cpu := be16ToCpu32 host t.cpu
        error := be16ToCpu host t.error
        pduLen := be16ToCpu host t.pduLen }
  { dataIsNative := native
    tp := tp
    pdu :=
      if tp.pduLen ≠ 0 then some ((List.range tp.pduLen.toNat).map payload) else none
    size := sizeofTrace + tp.pduLen.toNat }

namespace BlkIoTraceRecord

def swapped (r : BlkIoTraceRecord) : BlkIoTraceRecord where
  magic := bswap32 r.magic
  sequence := bswap32 r.sequence
  time := bswap64 r.time
  sector := bswap64 r.sector
  bytes := bswap32 r.bytes
  action := bswap32 r.action
  pid := bswap32 r.pid
  device := bswap32 r.device
  cpu := bswap32 r.cpu
  error := bswap16 r.error
  vecCount := bswap16 r.vecCount
  seq := bswap32 r.seq
  pduLen := bswap16 r.pduLen

/-- The bytes of the record in a file written on a machine of the given byte order, with the
padding at the end. -/
def store (e : Endian) (r : BlkIoTraceRecord) : List ℕ :=
  image e 4 r.magic.toNat ++ image e 4 r.sequence.toNat ++ image e 8 r.time.toNat ++
    image e 8 r.sector.toNat ++ image e 4 r.bytes.toNat ++ image e 4 r.action.toNat ++
    image e 4 r.pid.toNat ++ image e 4 r.device.toNat ++ image e 4 r.cpu.toNat ++
    image e 2 r.error.toNat ++ image e 2 r.vecCount.toNat ++ image e 4 r.seq.toNat ++
    image e 2 r.pduLen.toNat ++ [0, 0]

def field (e : Endian) (l : List ℕ) (offset size : ℕ) : ℕ := value e ((l.drop offset).take size)

def load (e : Endian) (l : List ℕ) : BlkIoTraceRecord where
  magic := UInt32.ofNat (field e l 0 4)
  sequence := UInt32.ofNat (field e l 4 4)
  time := UInt64.ofNat (field e l 8 8)
  sector := UInt64.ofNat (field e l 16 8)
  bytes := UInt32.ofNat (field e l 24 4)
  action := UInt32.ofNat (field e l 28 4)
  pid := UInt32.ofNat (field e l 32 4)
  device := UInt32.ofNat (field e l 36 4)
  cpu := UInt32.ofNat (field e l 40 4)
  error := UInt16.ofNat (field e l 44 2)
  vecCount := UInt16.ofNat (field e l 46 2)
  seq := UInt32.ofNat (field e l 48 4)
  pduLen := UInt16.ofNat (field e l 52 2)

end BlkIoTraceRecord

variable {x y : UInt32} {z : UInt16} {w : UInt64}

@[simp] theorem bswap16_bswap16 (z : UInt16) : bswap16 (bswap16 z) = z := by
  apply UInt16.toNat_inj.mp
  rw [bswap16, bswap16, UInt16.toNat_ofNat_of_lt' (swap_lt 2 _),
    UInt16.toNat_ofNat_of_lt' (swap_lt 2 _)]
  exact swap_swap z.toNat_lt

@[simp] theorem bswap32_bswap32 (x : UInt32) : bswap32 (bswap32 x) = x := by
  apply UInt32.toNat_inj.mp
  rw [bswap32, bswap32, UInt32.toNat_ofNat_of_lt' (swap_lt 4 _),
    UInt32.toNat_ofNat_of_lt' (swap_lt 4 _)]
  exact swap_swap x.toNat_lt

@[simp] theorem bswap64_bswap64 (w : UInt64) : bswap64 (bswap64 w) = w := by
  apply UInt64.toNat_inj.mp
  rw [bswap64, bswap64, UInt64.toNat_ofNat_of_lt' (swap_lt 8 _),
    UInt64.toNat_ofNat_of_lt' (swap_lt 8 _)]
  exact swap_swap w.toNat_lt

theorem be16ToCpu32_bswap32 (x : UInt32) :
    (be16ToCpu32 .little (bswap32 x)).toNat = x.toNat / 256 ^ 2 := by
  have hx : x.toNat / 256 ^ 2 < 256 ^ 2 := by have := x.toNat_lt; omega
  have h := swap_swap_low 2 2 x.toNat
  rw [Nat.mod_eq_of_lt hx] at h
  rw [be16ToCpu32, bswap16, UInt16.toNat_toUInt32, UInt16.toNat_ofNat_of_lt' (swap_lt 2 _),
    UInt32.toNat_toUInt16, bswap32, UInt32.toNat_ofNat_of_lt' (swap_lt 4 _)]
  exact h

theorem be16ToCpu32_eq_iff (x : UInt32) : be16ToCpu32 .little (bswap32 x) = x ↔ x = 0 := by
  rw [← UInt32.toNat_inj, be16ToCpu32_bswap32, ← UInt32.toNat_inj, UInt32.toNat_zero]
  omega

theorem magic_iff (x : UInt32) :
    x &&& 0xffffff00 = blkIoTraceMagic ↔ x.toNat / 256 = blkIoTraceMagic.toNat / 256 := by
  have h : (x &&& 0xffffff00).toNat = x.toNat / 256 * 256 := by
    have hx : x.toNat / 256 < 2 ^ 24 := by have := x.toNat_lt; omega
    have hs : (x.toNat &&& 0xffffff00) / 2 ^ 8 = x.toNat / 256 := by
      rw [← Nat.shiftRight_eq_div_pow, Nat.shiftRight_and_distrib, Nat.shiftRight_eq_div_pow]
      exact (Nat.and_two_pow_sub_one_eq_mod _ 24).trans (Nat.mod_eq_of_lt hx)
    have hl : (x.toNat &&& 0xffffff00) % 2 ^ 8 = 0 := by
      rw [Nat.and_mod_two_pow]
      exact Nat.and_zero _
    rw [UInt32.toNat_and, show (0xffffff00 : UInt32).toNat = 0xffffff00 from rfl]
    omega
  rw [← UInt32.toNat_inj, h, show blkIoTraceMagic.toNat = 0x65617400 from rfl]
  omega

theorem bswap32_magic (h : x &&& 0xffffff00 = blkIoTraceMagic) :
    bswap32 x &&& 0xffffff00 ≠ blkIoTraceMagic := by
  rw [Ne, magic_iff, bswap32, UInt32.toNat_ofNat_of_lt' (swap_lt 4 _)]
  rw [magic_iff, show blkIoTraceMagic.toNat = 0x65617400 from rfl] at h
  have hy : swap 4 x.toNat = x.toNat % 256 * 16777216 + 0x746165 := by
    simp only [swap, lowBytes, List.reverse_cons, List.reverse_nil, List.nil_append, List.cons_append,
      Nat.ofDigits_cons, Nat.ofDigits_nil, h]
    omega
  rw [hy, show blkIoTraceMagic.toNat = 0x65617400 from rfl]
  omega

namespace BlkIoTraceRecord

theorem load_store_other (host : Endian) (r : BlkIoTraceRecord) :
    load host (store host.other r) = r.swapped := by
  simp [load, store, swapped, field, List.drop_append, List.drop_of_length_le,
    value_image_other, bswap16, bswap32, bswap64]

theorem load_store (host : Endian) (r : BlkIoTraceRecord) : load host (store host r) = r := by
  simp [load, store, field, List.drop_append, List.drop_of_length_le, value_image]

theorem swapped_swapped (r : BlkIoTraceRecord) : r.swapped.swapped = r := by
  simp [swapped]

theorem checkDataEndianness_swapped (r : BlkIoTraceRecord) (h : r.checkMagic) (native : ℤ) :
    checkDataEndianness r.magic native = (1, 0) ∧
      checkDataEndianness r.swapped.magic native = (0, 0) := by
  have hm : r.magic &&& 0xffffff00 = blkIoTraceMagic := by simpa [BlkIoTrace.checkMagic] using h
  constructor
  · exact if_pos hm
  · rw [checkDataEndianness, swapped, if_neg (bswap32_magic hm), bswap32_bswap32, if_pos hm]

end BlkIoTraceRecord

/-- Decoding the byte-swapped image gives the record back, and native records stay as they are. -/
structure Decodes (host : Endian) (payload : Buf) (r tp : BlkIoTraceRecord) : Prop where
  blkparse : traceToCpu host 0 r.swapped = r
  blkparseNative : traceToCpu host 1 r = r
  btt : (convertToCpu host 0 r.swapped payload tp).tp = r
  bttNative : (convertToCpu host 1 r payload tp).tp = r

def DecodesAlike (host : Endian) (payload : Buf) (t tp : BlkIoTraceRecord) : Prop :=
  ∀ native : ℤ, native = 0 ∨ native = 1 →
    (convertToCpu host native t payload tp).tp = traceToCpu host native t

def Symmetric : Endian → BlkIoTraceRecord → Prop
  | .little, r => bswap16 r.vecCount = r.vecCount ∧ bswap32 r.seq = r.seq ∧ r.cpu = 0
  | .big, r => r.swapped = r

theorem traceToCpu_little (r : BlkIoTraceRecord) :
    traceToCpu .little 0 r.swapped = { r with vecCount := bswap16 r.vecCount, seq := bswap32 r.seq } := by
  simp [traceToCpu, BlkIoTraceRecord.swapped, be16ToCpu, be32ToCpu, be64ToCpu]

theorem convertToCpu_little (payload : Buf) (r tp : BlkIoTraceRecord) :
    (convertToCpu .little 0 r.swapped payload tp).tp =
      { r with cpu := be16ToCpu32 .little (bswap32 r.cpu), vecCount := tp.vecCount, seq := tp.seq } := by
  simp [convertToCpu, BlkIoTraceRecord.swapped, be16ToCpu, be32ToCpu, be64ToCpu]

theorem traceToCpu_big (t : BlkIoTraceRecord) : traceToCpu .big 0 t = t := rfl

theorem convertToCpu_big (payload : Buf) (t tp : BlkIoTraceRecord) :
    (convertToCpu .big 0 t payload tp).tp = { t with vecCount := tp.vecCount, seq := tp.seq } := rfl

theorem decodes_iff (host : Endian) (payload : Buf) (r tp : BlkIoTraceRecord) :
    Decodes host payload r tp ↔
      Symmetric host r ∧ tp.vecCount = r.vecCount ∧ tp.seq = r.seq := by
  constructor
  · rintro ⟨hp, -, hb, -⟩
    cases host with
    | little =>
      rw [traceToCpu_little] at hp
      rw [convertToCpu_little] at hb
      refine ⟨⟨congrArg (·.vecCount) hp, congrArg (·.seq) hp, ?_⟩, congrArg (·.vecCount) hb,
        congrArg (·.seq) hb⟩
      exact (be16ToCpu32_eq_iff r.cpu).mp (congrArg (·.cpu) hb)
    | big =>
      rw [traceToCpu_big] at hp
      rw [convertToCpu_big, hp] at hb
      exact ⟨hp, congrArg (·.vecCount) hb, congrArg (·.seq) hb⟩
  · rintro ⟨hs, hv, hq⟩
    cases host with
    | little =>
      obtain ⟨hvec, hseq, hcpu⟩ := hs
      refine ⟨?_, rfl, ?_, rfl⟩
      · rw [traceToCpu_little, hvec, hseq]
      · rw [convertToCpu_little, (be16ToCpu32_eq_iff r.cpu).mpr hcpu, hv, hq]
    | big =>
      rw [Symmetric] at hs
      refine ⟨hs, rfl, ?_, rfl⟩
      rw [convertToCpu_big, hs, hv, hq]

theorem decodesAlike_iff (host : Endian) (payload : Buf) (r tp : BlkIoTraceRecord) :
    DecodesAlike host payload r.swapped tp ↔
      (host = .little → r.cpu = 0) ∧ tp.vecCount = r.swapped.vecCount ∧
        tp.seq = r.swapped.seq := by
  constructor
  · intro h
    have h0 := h 0 (Or.inl rfl)
    cases host with
    | little =>
      rw [convertToCpu_little, traceToCpu_little] at h0
      refine ⟨fun _ => ?_, congrArg (·.vecCount) h0, congrArg (·.seq) h0⟩
      exact (be16ToCpu32_eq_iff r.cpu).mp (congrArg (·.cpu) h0)
    | big =>
      rw [convertToCpu_big, traceToCpu_big] at h0
      exact ⟨fun he => by contradiction, congrArg (·.vecCount) h0, congrArg (·.seq) h0⟩
  · rintro ⟨hcpu, hv, hq⟩ native (rfl | rfl)
    · cases host with
      | little =>
        rw [convertToCpu_little, traceToCpu_little, (be16ToCpu32_eq_iff r.cpu).mpr (hcpu rfl), hv, hq]
        rfl
      | big => rw [convertToCpu_big, traceToCpu_big, hv, hq]
    · rfl

theorem decoders_recover_iff (host : Endian) (payload : Buf) (r tp : BlkIoTraceRecord) :
    (Decodes host payload r tp ↔
      Symmetric host r ∧ tp.vecCount = r.vecCount ∧ tp.seq = r.seq) ∧
    (DecodesAlike host payload r.swapped tp ↔
      (host = .little → r.cpu = 0) ∧ tp.vecCount = r.swapped.vecCount ∧
        tp.seq = r.swapped.seq) :=
  ⟨decodes_iff host payload r tp, decodesAlike_iff host payload r tp⟩

def annotatedTrace : BlkIoTraceRecord where
  magic := 0x65617407
  sequence := 1
  time := 0
  sector := 0
  bytes := 4096
  action := 0x00010001
  pid := 1
  device := 0x00800010
  cpu := 1
  error := 0
  vecCount := 1
  seq := 1
  pduLen := 0

def zeroedTrace : BlkIoTraceRecord := ⟨⟨0, 0, 0, 0, 0, 0⟩, 0, 0, 0, 0, 0, 0, 0⟩

theorem annotatedTrace_misread :
    ¬Decodes .little (fun _ => 0) annotatedTrace zeroedTrace ∧
      ¬DecodesAlike .little (fun _ => 0) annotatedTrace.swapped zeroedTrace := by
  constructor
  · intro h
    have hv : bswap16 1 = 1 := congrArg (·.vecCount) h.blkparse
    exact absurd hv (by decide)
  · intro h
    have hv : (0 : UInt16) = bswap16 1 := congrArg (·.vecCount) (h 0 (Or.inl rfl))
    exact absurd hv (by decide)

end SBlktrace
