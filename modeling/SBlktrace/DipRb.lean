import SBlktrace.RangeTree
import Mathlib

namespace SBlktrace

structure DipIo where
  sector : UInt64
  bytes : UInt32
deriving DecidableEq

namespace DipIo

def bitStart (iop : DipIo) : UInt64 := iop.sector

def bitEnd (iop : DipIo) : UInt64 := iop.sector + (iop.bytes >>> 9).toUInt64

def Holds (iop : DipIo) (sec : UInt64) : Prop := iop.bitStart ≤ sec ∧ sec < iop.bitEnd

def Encloses (iop this : DipIo) : Prop := iop.bitStart ≤ this.bitStart ∧ this.bitEnd ≤ iop.bitEnd

abbrev startNat (iop : DipIo) : ℕ := iop.bitStart.toNat

abbrev endNat (iop : DipIo) : ℕ := iop.bitEnd.toNat

end DipIo

namespace DipRb

open DipIo RangeTree

def rbInsert (rb : Rebalance DipIo) (root : RangeTree DipIo) (iop : DipIo) : RangeTree DipIo × ℕ :=
  match root.insert startNat iop with
  | none => (root, 0)
  | some root => (rb.color root, 1)

def rbFindSec (root : RangeTree DipIo) (sec : UInt64) : Option DipIo :=
  root.find startNat endNat sec.toNat

def rbForeach (root : RangeTree DipIo) (iop : DipIo) : List DipIo :=
  root.gather startNat endNat iop.startNat iop.endNat

def rbBuild (rb : Rebalance DipIo) (iops : List DipIo) : RangeTree DipIo :=
  iops.foldl (fun root iop => (rbInsert rb root iop).1) .nil

theorem rbBuild_sorted (rb : Rebalance DipIo) {iops : List DipIo}
    (h : (iops.map DipIo.sector).Nodup) :
    (rbBuild rb iops).toList.Perm iops ∧ Sorted startNat (rbBuild rb iops).toList := by
  induction iops using List.reverseRecOn with
  | nil => exact ⟨.nil, .nil⟩
  | append_singleton iops iop ih =>
    rw [List.map_append, List.nodup_append] at h
    obtain ⟨hnodup, -, hdisjoint⟩ := h
    obtain ⟨hperm, hsorted⟩ := ih hnodup
    have hnew : ∀ y ∈ (rbBuild rb iops).toList, iop.startNat ≠ y.startNat := by
      intro y hy heq
      exact hdisjoint y.sector (List.mem_map_of_mem (hperm.mem_iff.mp hy)) iop.sector
        List.mem_cons_self (UInt64.toNat_inj.mp heq).symm
    obtain ⟨root, hinsert, hperm', hsorted'⟩ := insert_sorted hsorted hnew
    have hbuild : rbBuild rb (iops ++ [iop]) = rb.color root := by
      rw [rbBuild, List.foldl_append, List.foldl_cons, List.foldl_nil, ← rbBuild, rbInsert, hinsert]
    rw [hbuild, rb.color_toList]
    refine ⟨hperm'.trans ?_, hsorted'⟩
    exact (hperm.cons iop).trans (List.perm_append_singleton iop iops).symm

/-- An I/O around the sector is found just if there is one, and it is an I/O around it. -/
def FindsExactly (root : RangeTree DipIo) (sec : UInt64) : Prop :=
  (∀ iop, rbFindSec root sec = some iop → iop ∈ root.toList ∧ iop.Holds sec) ∧
    ((rbFindSec root sec).isSome = true ↔ ∃ iop ∈ root.toList, iop.Holds sec)

def VisitsExactly (root : RangeTree DipIo) (iop : DipIo) : Prop :=
  (rbForeach root iop).Nodup ∧
    ∀ this, this ∈ rbForeach root iop ↔ this ∈ root.toList ∧ iop.Encloses this

/-- Of the I/Os around each sector one lies left of none that stops before the sector, and each I/O
stops behind those that it lies right of. -/
structure Prunable (root : RangeTree DipIo) : Prop where
  find : ∀ sec : UInt64, (∃ iop ∈ root.toList, iop.Holds sec) →
    ∃ iop ∈ root.toList, iop.Holds sec ∧ ¬ root.LeftOfStopped startNat endNat sec.toNat iop
  foreach : ∀ iop ∈ root.toList, ¬ root.RightOfLonger endNat iop.endNat iop

theorem holds_iff (iop : DipIo) (sec : UInt64) :
    iop.Holds sec ↔ iop.startNat ≤ sec.toNat ∧ sec.toNat < iop.endNat :=
  and_congr UInt64.le_iff_toNat_le UInt64.lt_iff_toNat_lt

theorem encloses_iff (iop this : DipIo) :
    iop.Encloses this ↔ iop.startNat ≤ this.startNat ∧ this.endNat ≤ iop.endNat :=
  and_congr UInt64.le_iff_toNat_le UInt64.le_iff_toNat_le

section Exact

variable {root : RangeTree DipIo}

theorem findsExactly_iff (h : Sorted startNat root.toList) (sec : UInt64) :
    FindsExactly root sec ↔ ((∃ iop ∈ root.toList, iop.Holds sec) → ∃ iop ∈ root.toList,
      iop.Holds sec ∧ ¬ root.LeftOfStopped startNat endNat sec.toNat iop) := by
  have hfound : (rbFindSec root sec).isSome = true ↔ ∃ iop ∈ root.toList,
      iop.Holds sec ∧ ¬ root.LeftOfStopped startNat endNat sec.toNat iop := by
    simp only [holds_iff, and_assoc]
    exact find_isSome_iff h
  rw [FindsExactly, hfound]
  constructor
  · exact fun hexact => hexact.2.mpr
  · intro hexists
    refine ⟨fun iop hiop => ⟨find_mem hiop, (holds_iff iop sec).mpr (find_contains hiop)⟩, ?_, hexists⟩
    rintro ⟨iop, hiop, hholds, -⟩
    exact ⟨iop, hiop, hholds⟩

theorem visitsExactly_iff (h : Sorted startNat root.toList) :
    (∀ iop, VisitsExactly root iop) ↔
      ∀ iop ∈ root.toList, ¬ root.RightOfLonger endNat iop.endNat iop := by
  have hvisit (iop this : DipIo) : this ∈ rbForeach root iop ↔
      this ∈ root.toList ∧ iop.Encloses this ∧ ¬ root.RightOfLonger endNat iop.endNat this := by
    rw [encloses_iff, and_assoc]
    exact mem_gather_iff h
  constructor
  · intro hexact iop hiop
    have hself := (hexact iop).2 iop
    rw [hvisit] at hself
    exact (hself.mpr ⟨hiop, UInt64.le_refl _, UInt64.le_refl _⟩).2.2
  · intro hclear iop
    refine ⟨gather_nodup h, fun this => ?_⟩
    rw [hvisit]
    refine ⟨fun hthis => ⟨hthis.1, hthis.2.1⟩, fun hthis => ⟨hthis.1, hthis.2, fun hlonger => ?_⟩⟩
    exact hclear this hthis.1 (hlonger.mono ((encloses_iff iop this).mp hthis.2).2)

end Exact

/-- The lookups in a tree are exact just if the subtrees that they pass over hold nothing that they
look for. -/
theorem range_lookups_exact_iff (rb : Rebalance DipIo) (iops : List DipIo)
    (h : (iops.map DipIo.sector).Nodup) :
    ((∀ sec, FindsExactly (rbBuild rb iops) sec) ∧ ∀ iop, VisitsExactly (rbBuild rb iops) iop) ↔
      Prunable (rbBuild rb iops) := by
  have hsorted := (rbBuild_sorted rb h).2
  rw [visitsExactly_iff hsorted]
  constructor
  · rintro ⟨hfind, hforeach⟩
    exact ⟨fun sec => (findsExactly_iff hsorted sec).mp (hfind sec), hforeach⟩
  · rintro ⟨hfind, hforeach⟩
    exact ⟨fun sec => (findsExactly_iff hsorted sec).mpr (hfind sec), hforeach⟩

def unchanged : Rebalance DipIo := ⟨id, fun _ => rfl⟩

theorem range_lookups_apart :
    ([⟨0, 5120⟩, ⟨20, 5120⟩] : List DipIo).length = 2 ∧
      (((∀ sec, FindsExactly (rbBuild unchanged [⟨0, 5120⟩, ⟨20, 5120⟩]) sec) ∧
        ∀ iop, VisitsExactly (rbBuild unchanged [⟨0, 5120⟩, ⟨20, 5120⟩]) iop) ↔
      Prunable (rbBuild unchanged [⟨0, 5120⟩, ⟨20, 5120⟩])) :=
  ⟨rfl, range_lookups_exact_iff unchanged _ (by decide)⟩

/-- The sector 50 lies in an I/O from 0 to 100, which is left of one from 10 to 20; an I/O from 50 to
60 lies within one from 0 to 100, and right of one from 10 to 200. -/
theorem range_lookups_miss :
    (rbFindSec (rbBuild unchanged [⟨10, 5120⟩, ⟨0, 51200⟩]) 50 = none ∧
      ¬ FindsExactly (rbBuild unchanged [⟨10, 5120⟩, ⟨0, 51200⟩]) 50) ∧
    rbForeach (rbBuild unchanged [⟨10, 97280⟩, ⟨50, 5120⟩]) ⟨0, 51200⟩ = [] ∧
      ¬ VisitsExactly (rbBuild unchanged [⟨10, 97280⟩, ⟨50, 5120⟩]) ⟨0, 51200⟩ := by
  refine ⟨⟨by decide, fun h => ?_⟩, by decide, fun h => ?_⟩
  · have hsome := h.2.mpr ⟨⟨0, 51200⟩, by decide, by decide, by decide⟩
    exact absurd hsome (by decide)
  · have hvisit := (h.2 ⟨50, 5120⟩).mpr ⟨by decide, by decide, by decide⟩
    exact absurd hvisit (by decide)

end DipRb

end SBlktrace
