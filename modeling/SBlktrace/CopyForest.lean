import SBlktrace.IndirectForest
import Mathlib

namespace SBlktrace

open Function Forest PartitionData

section Copy

variable (extdesc : ExtDesc) (inodeid : UInt32) (version : UInt16)

def copyBlock (a : BlockNode) (count : UInt32) (ok : Bool) (p : PartitionData) :
    PartitionData × UInt32 × Bool :=
  match p.dataCache a.block with
  | some data =>
    let size := (p.ilist inodeid).siSize - a.offset * extdesc.edBlockSize
    let size := if extdesc.edBlockSize < size then extdesc.edBlockSize else size
    let (p, count, copied) := writeToTmpfs extdesc inodeid version a.offset size data count p
    (p, count, ok && copied)
  | none => (p, count, true)

def copyForest : Forest BlockNode → UInt32 → Bool → PartitionData → PartitionData × UInt32 × Bool
  | .nil, count, ok, p => (p, count, ok)
  | .node a kids rest, count, ok, p =>
    let copied :=
      if a.level ≠ 0 then
        let below := copyForest kids count true p
        (below.1, below.2.1, ok && below.2.2)
      else copyBlock extdesc inodeid version a count ok p
    copyForest rest copied.2.1 copied.2.2 copied.1

end Copy

structure Shows (p : PartitionData) (F : Forest BlockNode) : Prop where
  rep : Rep (fun b => (p.blist b).sbBh) (fun b => (p.blist b).sbSib) BlockNode.block F.first F
  level : ∀ a ∈ F.nodes, (p.blist a.block).sbLevel = a.level
  offset : ∀ a ∈ F.nodes, (p.blist a.block).sbOffset = a.offset

structure CopyKeeps (p p' : PartitionData) : Prop where
  blist : p'.blist = p.blist
  ilist : p'.ilist = p.ilist
  dataCache : p'.dataCache = p.dataCache

theorem CopyKeeps.refl (p : PartitionData) : CopyKeeps p p := ⟨rfl, rfl, rfl⟩

theorem CopyKeeps.trans {p p' p'' : PartitionData} (h : CopyKeeps p p') (h' : CopyKeeps p' p'') :
    CopyKeeps p p'' :=
  ⟨h'.blist.trans h.blist, h'.ilist.trans h.ilist, h'.dataCache.trans h.dataCache⟩

theorem Shows.congr {p p' : PartitionData} {F : Forest BlockNode} (h : Shows p F)
    (hblist : ∀ b ∈ F.blocks, p'.blist b = p.blist b) : Shows p' F := by
  refine ⟨h.rep.congr fun b hb => ?_, fun a ha => ?_, fun a ha => ?_⟩
  · rw [hblist b hb]
    exact ⟨rfl, rfl⟩
  · rw [hblist _ (List.mem_map_of_mem ha)]
    exact h.level a ha
  · rw [hblist _ (List.mem_map_of_mem ha)]
    exact h.offset a ha

theorem Shows.of_blist {p p' : PartitionData} {F : Forest BlockNode} (h : Shows p F)
    (hblist : p'.blist = p.blist) : Shows p' F :=
  h.congr fun b _ => congrFun hblist b

section Node

variable {p : PartitionData} {a : BlockNode} {kids rest : Forest BlockNode}

theorem Shows.ofKids (h : Shows p (.node a kids rest)) : Shows p kids := by
  obtain ⟨-, -, hrep, -⟩ := h.rep
  have hfirst := hrep.head_eq
  rw [hfirst] at hrep
  refine ⟨hrep, fun a' ha' => h.level a' ?_, fun a' ha' => h.offset a' ?_⟩
  · exact List.mem_cons_of_mem _ (List.mem_append_left _ ha')
  · exact List.mem_cons_of_mem _ (List.mem_append_left _ ha')

theorem Shows.ofRest (h : Shows p (.node a kids rest)) : Shows p rest := by
  obtain ⟨-, -, -, hrep⟩ := h.rep
  have hfirst := hrep.head_eq
  rw [hfirst] at hrep
  refine ⟨hrep, fun a' ha' => h.level a' ?_, fun a' ha' => h.offset a' ?_⟩
  · exact List.mem_cons_of_mem _ (List.mem_append_right _ ha')
  · exact List.mem_cons_of_mem _ (List.mem_append_right _ ha')

theorem Shows.node (h : Shows p (.node a kids rest)) :
    a.block ≠ 0 ∧ (p.blist a.block).sbLevel = a.level ∧ (p.blist a.block).sbOffset = a.offset ∧
      (p.blist a.block).sbBh = kids.first ∧ (p.blist a.block).sbSib = rest.first := by
  obtain ⟨-, hne, hkids, hrest⟩ := h.rep
  exact ⟨hne, h.level a List.mem_cons_self, h.offset a List.mem_cons_self, hkids.head_eq, hrest.head_eq⟩

end Node

section Spec

variable {extdesc : ExtDesc} {inodeid : UInt32} {version : UInt16}

theorem writeToTmpfs_keeps (offset size : UInt32) (buf : Buf) (count : UInt32) (p : PartitionData) :
    CopyKeeps p (writeToTmpfs extdesc inodeid version offset size buf count p).1 := by
  rw [writeToTmpfs]
  dsimp only
  split <;> exact ⟨rfl, rfl, rfl⟩

theorem copyBlock_keeps (a : BlockNode) (count : UInt32) (ok : Bool) (p : PartitionData) :
    CopyKeeps p (copyBlock extdesc inodeid version a count ok p).1 := by
  rw [copyBlock]
  cases p.dataCache a.block with
  | none => exact .refl p
  | some data => exact writeToTmpfs_keeps _ _ _ _ _

theorem copyForest_keeps (F : Forest BlockNode) (count : UInt32) (ok : Bool) (p : PartitionData) :
    CopyKeeps p (copyForest extdesc inodeid version F count ok p).1 := by
  induction F generalizing count ok p with
  | nil => exact .refl p
  | node a kids rest ihk ihr =>
    rw [copyForest]
    dsimp only
    refine CopyKeeps.trans ?_ (ihr _ _ _)
    split
    · exact ihk count true p
    · exact copyBlock_keeps a count ok p

theorem recurCopyBlock_eq {F : Forest BlockNode} {p : PartitionData} (h : Shows p F) {fuel : ℕ}
    (hfuel : F.nodes.length < fuel) (count : UInt32) (ok : Bool) :
    recurCopyBlock extdesc inodeid version fuel F.first count ok p =
      some (copyForest extdesc inodeid version F count ok p) := by
  induction F generalizing fuel count ok p with
  | nil =>
    obtain ⟨fuel, rfl⟩ : ∃ fuel', fuel = fuel' + 1 := ⟨fuel - 1, by omega⟩
    rw [recurCopyBlock]
    exact if_pos rfl
  | node a kids rest ihk ihr =>
    obtain ⟨hne, hlevel, hoffset, hbh, hsib⟩ := h.node
    rw [nodes, List.length_cons, List.length_append] at hfuel
    obtain ⟨fuel, rfl⟩ : ∃ fuel', fuel = fuel' + 1 := ⟨fuel - 1, by omega⟩
    have hnext (p' : PartitionData) (hkeeps : CopyKeeps p p') (count : UInt32) (ok : Bool) :
        recurCopyBlock extdesc inodeid version fuel (p'.blist a.block).sbSib count ok p' =
          some (copyForest extdesc inodeid version rest count ok p') := by
      rw [hkeeps.blist, hsib]
      exact ihr (h.ofRest.of_blist hkeeps.blist) (by omega) count ok
    have hfirst : (Forest.node a kids rest).first = a.block := rfl
    rw [hfirst, recurCopyBlock, if_neg hne, copyForest]
    dsimp only
    rw [hlevel]
    by_cases hdata : a.level = 0
    · rw [if_neg (not_not_intro hdata), if_neg (not_not_intro hdata), hoffset]
      have hkeeps := @copyBlock_keeps extdesc inodeid version a count ok p
      rw [copyBlock] at hkeeps ⊢
      cases hcache : p.dataCache a.block with
      | none => exact hnext p (.refl p) count true
      | some data =>
        rw [hcache] at hkeeps
        exact hnext _ hkeeps _ _
    · rw [if_pos hdata, if_pos hdata, hbh, ihk h.ofKids (by omega) count true]
      exact hnext _ (copyForest_keeps kids count true p) _ _

variable (extdesc)

theorem copyInode_some {F : Forest BlockNode} {p : PartitionData} (h : Shows p F)
    (hfirst : (p.ilist inodeid).siBh = F.first) :
    ∃ p', CopyKeeps p p' ∧ ∀ fuel, F.nodes.length < fuel → copyInode extdesc fuel inodeid p = some p' := by
  by_cases hzero : (p.ilist inodeid).siBh = 0
  · refine ⟨p, .refl p, fun fuel _ => ?_⟩
    rw [copyInode, if_neg (not_not_intro hzero)]
  · have hshows : Shows { p with globalVersion := p.globalVersion + 1 } F := h.of_blist rfl
    obtain ⟨hblist, hilist, hcache⟩ := @copyForest_keeps extdesc inodeid p.globalVersion F 0 true
      { p with globalVersion := p.globalVersion + 1 }
    have hcopy : ∀ fuel, F.nodes.length < fuel → copyInode extdesc fuel inodeid p =
        (some (copyForest extdesc inodeid p.globalVersion F 0 true
          { p with globalVersion := p.globalVersion + 1 })).bind fun copied =>
        if copied.2.2 then
          if copied.2.1 = 0 then some copied.1
          else some { copied.1 with queue := copied.1.queue ++ [(inodeid, p.globalVersion)] }
        else some { copied.1 with tmpfs := update copied.1.tmpfs (p.globalVersion, inodeid) none } := by
      intro fuel hfuel
      rw [copyInode, if_pos hzero]
      dsimp only
      rw [hfirst, recurCopyBlock_eq hshows hfuel]
      rfl
    simp only [Option.bind_some] at hcopy
    split at hcopy
    · split at hcopy
      · refine ⟨_, ?_, hcopy⟩
        exact ⟨hblist, hilist, hcache⟩
      · refine ⟨_, ?_, hcopy⟩
        exact ⟨hblist, hilist, hcache⟩
    · refine ⟨_, ?_, hcopy⟩
      exact ⟨hblist, hilist, hcache⟩

end Spec

end SBlktrace
