import SBlktrace.RangeTree
import Mathlib

namespace SBlktrace

open RangeTree

/-- `struct p_info`, which the number of its allocation stands for; `strcmp` orders the bytes of names
as lists. -/
structure PInfo where
  address : ℕ
  pid : UInt32
  name : List ℕ
deriving DecidableEq

structure PnInfo (κ : Type) where
  u : κ
  pip : PInfo

structure ProcessRb where
  byPid : Rebalance (PnInfo UInt32)
  byName : Rebalance (PnInfo (List ℕ))

structure ProcessMap where
  rootPid : RangeTree (PnInfo UInt32)
  rootName : RangeTree (PnInfo (List ℕ))
  allocated : List PInfo

inductive ProcessCall where
  | processAlloc (pid : UInt32) (name : List ℕ)
  | findProcess (pid : UInt32) (name : Option (List ℕ))
deriving DecidableEq

def ProcessCall.Allocates : ProcessCall → Prop
  | .processAlloc _ _ => True
  | .findProcess pid none => pid ≠ -1
  | .findProcess _ (some _) => False

namespace ProcessMap

def pidKey (pnp : PnInfo UInt32) : ℕ := pnp.u.toNat

def craftedName (pid : UInt32) : List ℕ :=
  ("pid".toList ++ (Nat.toDigits 10 pid.toNat).leftpad 9 '0').map Char.toNat

def empty : ProcessMap := ⟨.nil, .nil, []⟩

section

variable (rb : ProcessRb) (st : ProcessMap)

def findProcessPid (pid : UInt32) : Option PInfo :=
  (st.rootPid.lookup pidKey pid.toNat).map PnInfo.pip

def findProcessName (name : List ℕ) : Option PInfo :=
  (st.rootName.lookup PnInfo.u name).map PnInfo.pip

def insertPid (that : PInfo) (pid : UInt32) : ProcessMap :=
  match st.rootPid.insert pidKey ⟨pid, that⟩ with
  | none => st
  | some root => { st with rootPid := rb.byPid.color root }

def insertName (that : PInfo) : ProcessMap :=
  match st.rootName.insert PnInfo.u ⟨that.name, that⟩ with
  | none => st
  | some root => { st with rootName := rb.byName.color root }

def findNamed (pid : UInt32) (name : List ℕ) : ProcessMap × Option PInfo :=
  if pid ≠ -1 then
    match st.findProcessPid pid with
    | some pip => (st, some pip)
    | none =>
      match st.findProcessName name with
      | some pip => if pid ≠ pip.pid then (st.insertPid rb pip pid, some pip) else (st, some pip)
      | none => (st, none)
  else (st, st.findProcessName name)

def insert (pip : PInfo) : ProcessMap := (st.insertPid rb pip pip.pid).insertName rb pip

def processAlloc (pid : UInt32) (name : List ℕ) : ProcessMap :=
  match st.findNamed rb pid name with
  | (st, some _) => st
  | (st, none) =>
    let pip : PInfo := ⟨st.allocated.length, pid, name⟩
    ({ st with allocated := st.allocated ++ [pip] } : ProcessMap).insert rb pip

def findProcess (pid : UInt32) (name : Option (List ℕ)) : Option (ProcessMap × Option PInfo) :=
  match name with
  | some name => some (st.findNamed rb pid name)
  | none =>
    if pid ≠ -1 then
      match st.findProcessPid pid with
      | some pip => some (st, some pip)
      | none =>
        let st := st.processAlloc rb pid (craftedName pid)
        some (st, st.findProcessPid pid)
    else
      match st.rootName with
      | .nil => some (st, none)
      | .node _ _ _ => none

def call (c : ProcessCall) : Option ProcessMap :=
  match c with
  | .processAlloc pid name => some (st.processAlloc rb pid name)
  | .findProcess pid name => (st.findProcess rb pid name).map Prod.fst

end

def run (rb : ProcessRb) (calls : List ProcessCall) : Option ProcessMap := calls.foldlM (call rb) empty

def destroy {κ : Type} (freePip : Bool) : RangeTree (PnInfo κ) → List PInfo
  | .nil => []
  | .node left pnp right =>
    destroy freePip left ++ (destroy freePip right ++ if freePip then [pnp.pip] else [])

def pipExit (st : ProcessMap) : List PInfo := destroy false st.rootPid ++ destroy true st.rootName

structure Inv (st : ProcessMap) : Prop where
  sortedPid : Sorted pidKey st.rootPid.toList
  sortedName : Sorted PnInfo.u st.rootName.toList
  target : ∀ pnp ∈ st.rootPid.toList, pnp.pip ∈ st.allocated
  once : (st.rootName.toList.map PnInfo.pip).Perm st.allocated
  named : ∀ pnp ∈ st.rootName.toList, pnp.u = pnp.pip.name
  registered : ∀ pip ∈ st.allocated, (st.findProcessPid pip.pid).isSome = true
  address : ∀ (i : ℕ) (pip : PInfo), st.allocated[i]? = some pip → pip.address = i

structure Extends (st st' : ProcessMap) : Prop where
  pid : ∀ pid pip, st.findProcessPid pid = some pip → st'.findProcessPid pid = some pip
  allocated : st.allocated <+: st'.allocated

theorem Extends.refl (st : ProcessMap) : Extends st st := ⟨fun _ _ h => h, List.prefix_rfl⟩

theorem Extends.trans {st st' st'' : ProcessMap} (h : Extends st st') (h' : Extends st' st'') :
    Extends st st'' :=
  ⟨fun pid pip hpip => h'.pid pid pip (h.pid pid pip hpip), h.allocated.trans h'.allocated⟩

section Trees

variable {rb : ProcessRb} {st : ProcessMap} {pip : PInfo} {pid : UInt32} {name : List ℕ}

theorem findProcessPid_iff (h : Sorted pidKey st.rootPid.toList) :
    st.findProcessPid pid = some pip ↔ ⟨pid, pip⟩ ∈ st.rootPid.toList := by
  rw [findProcessPid, Option.map_eq_some_iff]
  constructor
  · rintro ⟨pnp, hlookup, rfl⟩
    obtain ⟨hmem, hkey⟩ := (lookup_eq_some_iff h).mp hlookup
    obtain rfl : pnp.u = pid := UInt32.toNat_inj.mp hkey
    exact hmem
  · exact fun hmem => ⟨⟨pid, pip⟩, (lookup_eq_some_iff h).mpr ⟨hmem, rfl⟩, rfl⟩

theorem findProcessName_iff (h : Sorted PnInfo.u st.rootName.toList) :
    st.findProcessName name = some pip ↔ ⟨name, pip⟩ ∈ st.rootName.toList := by
  rw [findProcessName, Option.map_eq_some_iff]
  constructor
  · rintro ⟨pnp, hlookup, rfl⟩
    obtain ⟨hmem, rfl⟩ := (lookup_eq_some_iff h).mp hlookup
    exact hmem
  · exact fun hmem => ⟨⟨name, pip⟩, (lookup_eq_some_iff h).mpr ⟨hmem, rfl⟩, rfl⟩

theorem insertPid_rest : (st.insertPid rb pip pid).rootName = st.rootName ∧
    (st.insertPid rb pip pid).allocated = st.allocated := by
  rw [insertPid]
  cases st.rootPid.insert pidKey ⟨pid, pip⟩ with
  | none => exact ⟨rfl, rfl⟩
  | some root => exact ⟨rfl, rfl⟩

theorem insertName_rest : (st.insertName rb pip).rootPid = st.rootPid ∧
    (st.insertName rb pip).allocated = st.allocated := by
  rw [insertName]
  cases st.rootName.insert PnInfo.u ⟨pip.name, pip⟩ with
  | none => exact ⟨rfl, rfl⟩
  | some root => exact ⟨rfl, rfl⟩

theorem insertPid_spec (h : Sorted pidKey st.rootPid.toList) :
    Sorted pidKey (st.insertPid rb pip pid).rootPid.toList ∧
      ∀ pnp, pnp ∈ (st.insertPid rb pip pid).rootPid.toList ↔
        pnp ∈ st.rootPid.toList ∨ st.findProcessPid pid = none ∧ pnp = ⟨pid, pip⟩ := by
  rw [insertPid]
  cases hpid : st.findProcessPid pid with
  | some pip' =>
    have hmem := (findProcessPid_iff h).mp hpid
    have hnone : st.rootPid.insert pidKey ⟨pid, pip⟩ = none := insert_sorted_of_mem h hmem rfl
    rw [hnone]
    refine ⟨h, fun pnp => ?_⟩
    simp only [reduceCtorEq, false_and, or_false]
  | none =>
    have hnew : ∀ pnp ∈ st.rootPid.toList, pidKey ⟨pid, pip⟩ ≠ pidKey pnp := by
      intro pnp hpnp heq
      obtain rfl : pid = pnp.u := UInt32.toNat_inj.mp heq
      rw [(findProcessPid_iff h).mpr hpnp] at hpid
      cases hpid
    obtain ⟨root, hinsert, hperm, hsorted⟩ := insert_sorted h hnew
    rw [hinsert]
    dsimp only
    rw [rb.byPid.color_toList]
    refine ⟨hsorted, fun pnp => ?_⟩
    rw [hperm.mem_iff, List.mem_cons]
    simp only [true_and]
    exact or_comm

theorem insertName_spec (h : Sorted PnInfo.u st.rootName.toList)
    (hname : st.findProcessName pip.name = none) :
    Sorted PnInfo.u (st.insertName rb pip).rootName.toList ∧
      (st.insertName rb pip).rootName.toList.Perm (⟨pip.name, pip⟩ :: st.rootName.toList) := by
  have hnew : ∀ pnp ∈ st.rootName.toList, PnInfo.u ⟨pip.name, pip⟩ ≠ pnp.u := by
    intro pnp hpnp heq
    change pip.name = pnp.u at heq
    rw [heq, (findProcessName_iff h).mpr hpnp] at hname
    cases hname
  obtain ⟨root, hinsert, hperm, hsorted⟩ := insert_sorted h hnew
  rw [insertName, hinsert]
  dsimp only
  rw [rb.byName.color_toList]
  exact ⟨hsorted, hperm⟩

theorem insertPid_find (h : Sorted pidKey st.rootPid.toList) :
    (∀ pid' pip', st.findProcessPid pid' = some pip' →
      (st.insertPid rb pip pid).findProcessPid pid' = some pip') ∧
    ((st.insertPid rb pip pid).findProcessPid pid).isSome = true := by
  obtain ⟨hsorted, hmem⟩ := @insertPid_spec rb st pip pid h
  have hkeep (pid' : UInt32) (pip' : PInfo) (hfind : st.findProcessPid pid' = some pip') :
      (st.insertPid rb pip pid).findProcessPid pid' = some pip' :=
    (findProcessPid_iff hsorted).mpr ((hmem _).mpr (.inl ((findProcessPid_iff h).mp hfind)))
  refine ⟨hkeep, ?_⟩
  cases hpid : st.findProcessPid pid with
  | some pip' =>
    rw [hkeep pid pip' hpid]
    rfl
  | none =>
    rw [(findProcessPid_iff hsorted).mpr ((hmem _).mpr (.inr ⟨hpid, rfl⟩))]
    rfl

theorem insertPid_inv (rb : ProcessRb) (h : Inv st) (hpip : pip ∈ st.allocated) (pid : UInt32) :
    Inv (st.insertPid rb pip pid) ∧ Extends st (st.insertPid rb pip pid) := by
  obtain ⟨hsorted, hmem⟩ := @insertPid_spec rb st pip pid h.sortedPid
  obtain ⟨hkeep, -⟩ := @insertPid_find rb st pip pid h.sortedPid
  obtain ⟨hname, hallocated⟩ := @insertPid_rest rb st pip pid
  refine ⟨⟨hsorted, ?_, ?_, ?_, ?_, ?_, ?_⟩, hkeep, ?_⟩
  · rw [hname]
    exact h.sortedName
  · intro pnp hpnp
    rw [hallocated]
    obtain hpnp | ⟨-, rfl⟩ := (hmem pnp).mp hpnp
    · exact h.target pnp hpnp
    · exact hpip
  · rw [hname, hallocated]
    exact h.once
  · rw [hname]
    exact h.named
  · intro pip' hpip'
    rw [hallocated] at hpip'
    obtain ⟨pip'', hfind⟩ := Option.isSome_iff_exists.mp (h.registered pip' hpip')
    rw [hkeep _ _ hfind]
    rfl
  · rw [hallocated]
    exact h.address
  · rw [hallocated]

theorem alloc_inv (rb : ProcessRb) (h : Inv st) (hname : st.findProcessName pip.name = none)
    (haddress : pip.address = st.allocated.length) :
    Inv (({ st with allocated := st.allocated ++ [pip] } : ProcessMap).insert rb pip) ∧
      Extends st (({ st with allocated := st.allocated ++ [pip] } : ProcessMap).insert rb pip) := by
  obtain ⟨st₁, hst₁⟩ : ∃ st₁ : ProcessMap, st₁ = { st with allocated := st.allocated ++ [pip] } :=
    ⟨_, rfl⟩
  rw [← hst₁, insert]
  have hpid₁ : st₁.rootPid = st.rootPid := by rw [hst₁]
  have hname₁ : st₁.rootName = st.rootName := by rw [hst₁]
  have hallocated₁ : st₁.allocated = st.allocated ++ [pip] := by rw [hst₁]
  have hsorted₁ : Sorted pidKey st₁.rootPid.toList := by
    rw [hpid₁]
    exact h.sortedPid
  obtain ⟨hsorted, hmem⟩ := @insertPid_spec rb st₁ pip pip.pid hsorted₁
  obtain ⟨hkeep, hself⟩ := @insertPid_find rb st₁ pip pip.pid hsorted₁
  obtain ⟨hname₂, hallocated₂⟩ := @insertPid_rest rb st₁ pip pip.pid
  obtain ⟨hpid₃, hallocated₃⟩ := @insertName_rest rb (st₁.insertPid rb pip pip.pid) pip
  have hrootName : (st₁.insertPid rb pip pip.pid).rootName = st.rootName := hname₂.trans hname₁
  obtain ⟨hsortedName, hperm⟩ := @insertName_spec rb (st₁.insertPid rb pip pip.pid) pip
    (by rw [hrootName]; exact h.sortedName) (by rwa [findProcessName, hrootName])
  have hallocated := hallocated₃.trans (hallocated₂.trans hallocated₁)
  have hfind (pid : UInt32) : ((st₁.insertPid rb pip pip.pid).insertName rb pip).findProcessPid pid =
      (st₁.insertPid rb pip pip.pid).findProcessPid pid := by
    rw [findProcessPid, hpid₃, findProcessPid]
  have hkeep' (pid' : UInt32) (pip' : PInfo) (hpip' : st.findProcessPid pid' = some pip') :
      ((st₁.insertPid rb pip pip.pid).insertName rb pip).findProcessPid pid' = some pip' := by
    rw [hfind]
    apply hkeep
    rwa [findProcessPid, hpid₁]
  rw [hrootName] at hperm
  refine ⟨⟨?_, hsortedName, ?_, ?_, ?_, ?_, ?_⟩, hkeep', ?_⟩
  · rwa [hpid₃]
  · intro pnp hpnp
    rw [hpid₃, hmem, hpid₁] at hpnp
    rw [hallocated, List.mem_append, List.mem_singleton]
    obtain hpnp | ⟨-, rfl⟩ := hpnp
    · exact .inl (h.target pnp hpnp)
    · exact .inr rfl
  · rw [hallocated]
    exact (hperm.map PnInfo.pip).trans ((h.once.cons pip).trans (List.perm_append_singleton _ _).symm)
  · intro pnp hpnp
    obtain rfl | hpnp := List.mem_cons.mp (hperm.mem_iff.mp hpnp)
    · rfl
    · exact h.named pnp hpnp
  · intro pip' hpip'
    rw [hallocated, List.mem_append, List.mem_singleton] at hpip'
    obtain hpip' | rfl := hpip'
    · obtain ⟨pip'', hfind'⟩ := Option.isSome_iff_exists.mp (h.registered pip' hpip')
      rw [hkeep' _ _ hfind']
      rfl
    · rwa [hfind]
  · intro i pip' hpip'
    rw [hallocated, List.getElem?_append] at hpip'
    split_ifs at hpip' with hi
    · exact h.address i pip' hpip'
    · obtain ⟨hlt, heq⟩ := List.getElem?_eq_some_iff.mp hpip'
      rw [List.length_singleton] at hlt
      rw [List.getElem_singleton] at heq
      rw [← heq, haddress]
      omega
  · rw [hallocated]
    exact List.prefix_append _ _

end Trees

section Calls

variable {rb : ProcessRb} {st st' : ProcessMap} {pip : PInfo} {pid : UInt32} {name : List ℕ}

theorem Inv.mem_of_name (h : Inv st) (hpip : st.findProcessName name = some pip) :
    pip ∈ st.allocated := by
  have hmem := (findProcessName_iff h.sortedName).mp hpip
  exact h.once.mem_iff.mp (List.mem_map_of_mem hmem)

theorem findNamed_spec (rb : ProcessRb) (h : Inv st) (pid : UInt32) (name : List ℕ) :
    Inv (st.findNamed rb pid name).1 ∧ Extends st (st.findNamed rb pid name).1 ∧
      (st.findNamed rb pid name).1.allocated = st.allocated ∧
      ((st.findNamed rb pid name).2 = none →
        (st.findNamed rb pid name).1 = st ∧ st.findProcessName name = none) := by
  rw [findNamed]
  by_cases hpid : pid ≠ -1
  · rw [if_pos hpid]
    cases st.findProcessPid pid with
    | some pip => exact ⟨h, .refl st, rfl, fun hnone => by cases hnone⟩
    | none =>
      cases hname : st.findProcessName name with
      | none => exact ⟨h, .refl st, rfl, fun _ => ⟨rfl, rfl⟩⟩
      | some pip =>
        dsimp only
        split_ifs
        · obtain ⟨hinv, hextends⟩ := insertPid_inv rb h (h.mem_of_name hname) pid
          exact ⟨hinv, hextends, insertPid_rest.2, fun hnone => by cases hnone⟩
        · exact ⟨h, .refl st, rfl, fun hnone => by cases hnone⟩
  · rw [if_neg hpid]
    exact ⟨h, .refl st, rfl, fun hnone => ⟨rfl, hnone⟩⟩

theorem processAlloc_spec (rb : ProcessRb) (h : Inv st) (pid : UInt32) (name : List ℕ) :
    Inv (st.processAlloc rb pid name) ∧ Extends st (st.processAlloc rb pid name) := by
  obtain ⟨hinv, hextends, -, hnone⟩ := findNamed_spec rb h pid name
  rw [processAlloc]
  obtain ⟨⟨st', found⟩, hfind⟩ : ∃ r, r = st.findNamed rb pid name := ⟨_, rfl⟩
  rw [← hfind] at hinv hextends hnone ⊢
  cases found with
  | some pip => exact ⟨hinv, hextends⟩
  | none =>
    obtain ⟨rfl, hname⟩ := hnone rfl
    exact @alloc_inv st' ⟨st'.allocated.length, pid, name⟩ rb hinv hname rfl

theorem Inv.rootName_nil_iff (h : Inv st) : st.rootName = .nil ↔ st.allocated = [] := by
  have hlength := h.once.length_eq
  rw [List.length_map] at hlength
  cases hroot : st.rootName with
  | nil =>
    rw [hroot] at hlength
    exact iff_of_true rfl (List.length_eq_zero_iff.mp hlength.symm)
  | node left pnp right =>
    rw [hroot, toList_node, List.length_append, List.length_cons] at hlength
    refine iff_of_false (fun hnil => by cases hnil) fun hnil => ?_
    rw [hnil, List.length_nil] at hlength
    omega

theorem Inv.mem_of_pid (h : Inv st) (hpip : st.findProcessPid pid = some pip) :
    pip ∈ st.allocated :=
  h.target _ ((findProcessPid_iff h.sortedPid).mp hpip)

theorem findNamed_mem (h : Inv st) (hpip : (st.findNamed rb pid name).2 = some pip) :
    pip ∈ st.allocated := by
  rw [findNamed] at hpip
  split_ifs at hpip with hpid
  · cases hfind : st.findProcessPid pid with
    | some pip' =>
      rw [hfind] at hpip
      rw [← Option.some.inj hpip]
      exact h.mem_of_pid hfind
    | none =>
      rw [hfind] at hpip
      cases hname : st.findProcessName name with
      | none =>
        rw [hname] at hpip
        cases hpip
      | some pip' =>
        rw [hname] at hpip
        dsimp only at hpip
        rw [apply_ite Prod.snd, ite_self] at hpip
        rw [← Option.some.inj hpip]
        exact h.mem_of_name hname
  · exact h.mem_of_name hpip

theorem processAlloc_ne_nil (rb : ProcessRb) (h : Inv st) (pid : UInt32) (name : List ℕ) :
    (st.processAlloc rb pid name).allocated ≠ [] := by
  have hallocated := (findNamed_spec rb h pid name).2.2.1
  rw [processAlloc]
  obtain ⟨⟨st', found⟩, hfind⟩ : ∃ r, r = st.findNamed rb pid name := ⟨_, rfl⟩
  rw [← hfind] at hallocated ⊢
  cases found with
  | some pip =>
    have hmem : pip ∈ st.allocated := findNamed_mem h (by rw [← hfind])
    dsimp only at hallocated ⊢
    rw [hallocated]
    exact List.ne_nil_of_mem hmem
  | none =>
    dsimp only
    rw [insert, insertName_rest.2, insertPid_rest.2]
    exact List.concat_ne_nil _ _

theorem call_spec (rb : ProcessRb) (h : Inv st) (c : ProcessCall) :
    (call rb st c = none ∧ c = .findProcess (-1) none ∧ st.allocated ≠ []) ∨
    ¬ (c = .findProcess (-1) none ∧ st.allocated ≠ []) ∧
      ∃ st', call rb st c = some st' ∧ Inv st' ∧ Extends st st' ∧
        (st'.allocated = [] ↔ st.allocated = [] ∧ ¬ c.Allocates) := by
  cases c with
  | processAlloc pid name =>
    obtain ⟨hinv, hextends⟩ := processAlloc_spec rb h pid name
    refine .inr ⟨fun hc => (by cases hc.1), _, rfl, hinv, hextends, ?_⟩
    exact iff_of_false (processAlloc_ne_nil rb h pid name) fun hnot => hnot.2 trivial
  | findProcess pid name =>
    cases name with
    | some name =>
      obtain ⟨hinv, hextends, hallocated, -⟩ := findNamed_spec rb h pid name
      refine .inr ⟨fun hc => (by cases hc.1), _, rfl, hinv, hextends, ?_⟩
      rw [hallocated]
      exact (and_iff_left fun hallocates => hallocates).symm
    | none =>
      rw [call, findProcess]
      by_cases hpid : pid ≠ -1
      · rw [if_pos hpid]
        have hother : ¬ (ProcessCall.findProcess pid none = .findProcess (-1) none ∧
            st.allocated ≠ []) := by
          rintro ⟨heq, -⟩
          exact hpid (ProcessCall.findProcess.inj heq).1
        cases hfind : st.findProcessPid pid with
        | some pip =>
          refine .inr ⟨hother, st, rfl, h, .refl st, ?_⟩
          exact iff_of_false (List.ne_nil_of_mem (h.mem_of_pid hfind)) fun hnot => hnot.2 hpid
        | none =>
          obtain ⟨hinv, hextends⟩ := processAlloc_spec rb h pid (craftedName pid)
          refine .inr ⟨hother, _, rfl, hinv, hextends, ?_⟩
          exact iff_of_false (processAlloc_ne_nil rb h pid (craftedName pid)) fun hnot => hnot.2 hpid
      · rw [if_neg hpid]
        obtain rfl : pid = -1 := not_not.mp hpid
        cases hroot : st.rootName with
        | nil =>
          have hnil := h.rootName_nil_iff.mp hroot
          refine .inr ⟨fun hc => hc.2 hnil, st, rfl, h, .refl st, ?_⟩
          exact iff_of_true hnil ⟨hnil, fun hne => hne rfl⟩
        | node left pnp right =>
          refine .inl ⟨rfl, rfl, fun hnil => ?_⟩
          rw [h.rootName_nil_iff.mpr hnil] at hroot
          cases hroot

end Calls

section Runs

variable {rb : ProcessRb} {st st' : ProcessMap} {calls : List ProcessCall}

theorem call_some {c : ProcessCall} (h : Inv st) (hcall : call rb st c = some st') :
    Inv st' ∧ Extends st st' := by
  obtain ⟨hnone, -⟩ | ⟨-, st'', hsome, hinv, hextends, -⟩ := call_spec rb h c
  · rw [hnone] at hcall
    cases hcall
  · rw [hsome] at hcall
    obtain rfl := Option.some.inj hcall
    exact ⟨hinv, hextends⟩

theorem foldlM_extends (h : Inv st) (hrun : calls.foldlM (call rb) st = some st') :
    Inv st' ∧ Extends st st' := by
  induction calls generalizing st with
  | nil =>
    obtain rfl := Option.some.inj hrun
    exact ⟨h, .refl st⟩
  | cons c calls ih =>
    rw [List.foldlM_cons] at hrun
    obtain ⟨st₁, hcall, hrest⟩ := Option.bind_eq_some_iff.mp hrun
    obtain ⟨hinv, hextends⟩ := call_some h hcall
    obtain ⟨hinv', hextends'⟩ := ih hinv hrest
    exact ⟨hinv', hextends.trans hextends'⟩

theorem empty_inv : Inv empty := by
  constructor
  · exact .nil
  · exact .nil
  · exact List.forall_mem_nil _
  · exact .nil
  · exact List.forall_mem_nil _
  · exact List.forall_mem_nil _
  · intro i pip hpip
    cases hpip

theorem run_inv (h : run rb calls = some st) : Inv st := (foldlM_extends empty_inv h).1

theorem run_concat (rb : ProcessRb) (calls : List ProcessCall) (c : ProcessCall) :
    run rb (calls ++ [c]) = (run rb calls).bind fun st => call rb st c := by
  rw [run, List.foldlM_append, ← run]
  congr 1
  funext st
  rw [List.foldlM_cons]
  cases call rb st c with
  | none => rfl
  | some st => rfl

theorem run_allocated (h : run rb calls = some st) :
    st.allocated = [] ↔ ∀ c ∈ calls, ¬ c.Allocates := by
  induction calls using List.reverseRecOn generalizing st with
  | nil =>
    obtain rfl := Option.some.inj h
    exact iff_of_true rfl (List.forall_mem_nil _)
  | append_singleton calls c ih =>
    rw [run_concat] at h
    obtain ⟨st₁, hrun, hcall⟩ := Option.bind_eq_some_iff.mp h
    obtain ⟨hnone, -⟩ | ⟨-, st₂, hsome, -, -, hallocated⟩ := call_spec rb (run_inv hrun) c
    · rw [hnone] at hcall
      cases hcall
    · rw [hsome] at hcall
      obtain rfl := Option.some.inj hcall
      rw [hallocated, ih hrun, List.forall_mem_append, List.forall_mem_singleton]

theorem run_isSome_iff (rb : ProcessRb) (calls : List ProcessCall) :
    (∃ st, run rb calls = some st) ↔
      calls.Pairwise fun c c' => c.Allocates → c' ≠ .findProcess (-1) none := by
  induction calls using List.reverseRecOn with
  | nil => exact iff_of_true ⟨empty, rfl⟩ .nil
  | append_singleton calls c ih =>
    rw [List.pairwise_append, ← ih, run_concat]
    constructor
    · rintro ⟨st, hrun⟩
      obtain ⟨st₁, hrun₁, hcall⟩ := Option.bind_eq_some_iff.mp hrun
      refine ⟨⟨st₁, hrun₁⟩, List.pairwise_singleton _ _, fun c' hc' c'' hc'' hallocates heq => ?_⟩
      rw [List.mem_singleton.mp hc''] at heq
      obtain ⟨hnone, -⟩ | ⟨hnot, -⟩ := call_spec rb (run_inv hrun₁) c
      · rw [hnone] at hcall
        cases hcall
      · apply hnot
        exact ⟨heq, fun hnil => (run_allocated hrun₁).mp hnil c' hc' hallocates⟩
    · rintro ⟨⟨st₁, hrun₁⟩, -, hcross⟩
      rw [hrun₁, Option.bind_some]
      obtain ⟨-, heq, hne⟩ | ⟨-, st₂, hsome, -⟩ := call_spec rb (run_inv hrun₁) c
      · have hnone : ∀ c' ∈ calls, ¬ c'.Allocates := by
          intro c' hc' hallocates
          exact hcross c' hc' c List.mem_cons_self hallocates heq
        exact absurd ((run_allocated hrun₁).mpr hnone) hne
      · exact ⟨st₂, hsome⟩

end Runs

theorem destroy_eq {κ : Type} (freePip : Bool) (t : RangeTree (PnInfo κ)) :
    destroy freePip t = if freePip then t.postOrder.map PnInfo.pip else [] := by
  induction t with
  | nil =>
    cases freePip with
    | false => rfl
    | true => rfl
  | node left pnp right ihleft ihright =>
    rw [destroy, ihleft, ihright]
    cases freePip with
    | false => rfl
    | true =>
      simp only [if_true, postOrder, List.map_append, List.map_cons, List.map_nil]

/-- What holds of the two trees after a run: pids keep their processes, and every process is in the tree of
names once and freed once. -/
structure Consistent (rb : ProcessRb) (calls : List ProcessCall) (st : ProcessMap) : Prop where
  pids : (st.rootPid.toList.map PnInfo.u).Nodup
  kept : ∀ before after st', calls = before ++ after → run rb before = some st' → Extends st' st
  once : (st.rootName.toList.map PnInfo.pip).Perm st.allocated
  distinct : st.allocated.Nodup
  named : ∀ pnp ∈ st.rootName.toList, pnp.u = pnp.pip.name
  names : (st.rootName.toList.map PnInfo.u).Nodup
  target : ∀ pnp ∈ st.rootPid.toList, pnp.pip ∈ st.rootName.toList.map PnInfo.pip
  freed : st.pipExit.Perm st.allocated

theorem run_consistent {rb : ProcessRb} {calls : List ProcessCall} {st : ProcessMap}
    (h : run rb calls = some st) : Consistent rb calls st := by
  have hinv := run_inv h
  constructor
  · exact List.pairwise_map.mpr (hinv.sortedPid.imp fun hlt heq =>
      hlt.ne (congrArg UInt32.toNat heq))
  · rintro before after st' rfl hbefore
    rw [run, List.foldlM_append, ← run, hbefore] at h
    exact (foldlM_extends (run_inv hbefore) h).2
  · exact hinv.once
  · rw [List.nodup_iff_getElem?_ne_getElem?]
    intro i j hij hj heq
    rw [List.getElem?_eq_getElem hj] at heq
    have hi := hinv.address i _ heq
    have hj' := hinv.address j _ (List.getElem?_eq_getElem hj)
    omega
  · exact hinv.named
  · exact List.pairwise_map.mpr (hinv.sortedName.imp fun hlt => hlt.ne)
  · intro pnp hpnp
    exact hinv.once.mem_iff.mpr (hinv.target pnp hpnp)
  · rw [pipExit, destroy_eq, destroy_eq]
    exact ((postOrder_perm _).map PnInfo.pip).trans hinv.once

/-- The calls leave the two trees consistent just if no name that is there is compared with the null
pointer: for the pid -1 without a name, once a process was allocated. -/
theorem process_map_consistent_iff (rb : ProcessRb) (calls : List ProcessCall) :
    (∃ st, run rb calls = some st ∧ Consistent rb calls st) ↔
      calls.Pairwise fun c c' => c.Allocates → c' ≠ .findProcess (-1) none := by
  rw [← run_isSome_iff rb]
  constructor
  · rintro ⟨st, hrun, -⟩
    exact ⟨st, hrun⟩
  · rintro ⟨st, hrun⟩
    exact ⟨st, hrun, run_consistent hrun⟩

def uncolored : ProcessRb := ⟨⟨id, fun _ => rfl⟩, ⟨id, fun _ => rfl⟩⟩

/-- After a process is allocated, -1 is looked up without a name. -/
theorem null_name_compared :
    run uncolored [.processAlloc 1 [97], .findProcess (-1) none] = none ∧
      ¬ ∃ st, run uncolored [.processAlloc 1 [97], .findProcess (-1) none] = some st ∧
        Consistent uncolored [.processAlloc 1 [97], .findProcess (-1) none] st := by
  have hrun : run uncolored [.processAlloc 1 [97], .findProcess (-1) none] = none := rfl
  refine ⟨hrun, ?_⟩
  rintro ⟨st, hst, -⟩
  rw [hrun] at hst
  cases hst

end ProcessMap

end SBlktrace
