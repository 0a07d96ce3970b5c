import Mathlib

/-- A forest, by the first tree of it: its root, the forest of its children and the trees after it. -/
inductive Forest (α : Type) where
  | nil
  | node (a : α) (kids rest : Forest α)

namespace Forest

variable {α κ : Type}

def nodes : Forest α → List α
  | nil => []
  | node a kids rest => a :: (kids.nodes ++ rest.nodes)

def append : Forest α → Forest α → Forest α
  | nil, G => G
  | node a kids rest, G => node a kids (rest.append G)

def last : Forest α → Option α
  | nil => none
  | node a _ nil => some a
  | node _ _ (node b kids rest) => last (node b kids rest)

def setKids [DecidableEq κ] (key : α → κ) (k : κ) : Forest α → Forest α → Forest α
  | nil, _ => nil
  | node a kids rest, K =>
    node a (if key a = k then K else kids.setKids key k K) (rest.setKids key k K)

def keys (key : α → κ) (F : Forest α) : List κ := F.nodes.map key

def map {β : Type} (f : α → β) : Forest α → Forest β
  | nil => nil
  | node a kids rest => node (f a) (kids.map f) (rest.map f)

theorem nodes_map {β : Type} (f : α → β) (F : Forest α) : (F.map f).nodes = F.nodes.map f := by
  induction F with
  | nil => rfl
  | node a kids rest ihk ihr => rw [map, nodes, nodes, ihk, ihr, List.map_cons, List.map_append]

theorem eq_of_map_eq {β : Type} {f : α → β} {F G : Forest α} (h : F.map f = G.map f)
    (hnodes : ∀ a ∈ F.nodes, ∀ b ∈ G.nodes, f a = f b → a = b) : F = G := by
  induction F generalizing G with
  | nil =>
    cases G with
    | nil => rfl
    | node b kids' rest' => cases h
  | node a kids rest ihk ihr =>
    cases G with
    | nil => cases h
    | node b kids' rest' =>
      rw [map, map, node.injEq] at h
      obtain ⟨hroot, hkids, hrest⟩ := h
      rw [nodes, nodes] at hnodes
      obtain rfl := hnodes a List.mem_cons_self b List.mem_cons_self hroot
      have hk := ihk hkids fun x hx y hy => hnodes x
        (List.mem_cons_of_mem _ (List.mem_append_left _ hx)) y
        (List.mem_cons_of_mem _ (List.mem_append_left _ hy))
      have hr := ihr hrest fun x hx y hy => hnodes x
        (List.mem_cons_of_mem _ (List.mem_append_right _ hx)) y
        (List.mem_cons_of_mem _ (List.mem_append_right _ hy))
      rw [hk, hr]

section Nodes

variable {key : α → κ} {F G : Forest α}

@[simp] theorem keys_nil : (nil : Forest α).keys key = [] := rfl

@[simp] theorem keys_node {a : α} {kids rest : Forest α} :
    (node a kids rest).keys key = key a :: (kids.keys key ++ rest.keys key) := by
  simp [keys, nodes]

@[simp] theorem nodes_append (F G : Forest α) : (F.append G).nodes = F.nodes ++ G.nodes := by
  induction F with
  | nil => rfl
  | node a kids rest _ ih => simp [append, nodes, ih]

@[simp] theorem keys_append (F G : Forest α) : (F.append G).keys key = F.keys key ++ G.keys key := by
  simp [keys]

@[simp] theorem append_nil (F : Forest α) : F.append nil = F := by
  induction F with
  | nil => rfl
  | node a kids rest _ ih => rw [append, ih]

theorem append_assoc (F G H : Forest α) : (F.append G).append H = F.append (G.append H) := by
  induction F with
  | nil => rfl
  | node a kids rest _ ih => rw [append, append, append, ih]

theorem last_mem {a : α} (h : F.last = some a) : a ∈ F.nodes := by
  induction F with
  | nil => cases h
  | node b kids rest _ ih =>
    cases rest with
    | nil =>
      cases h
      exact List.mem_cons_self
    | node c kids' rest' =>
      exact List.mem_cons_of_mem _ (List.mem_append_right _ (ih h))

theorem last_eq_none (h : F.last = none) : F = nil := by
  induction F with
  | nil => rfl
  | node b kids rest _ ih =>
    cases rest with
    | nil => cases h
    | node c kids' rest' => cases ih h

theorem last_node (a : α) (kids rest : Forest α) :
    (node a kids rest).last = rest.last.or (some a) := by
  induction rest generalizing a kids with
  | nil => rfl
  | node b kids' rest' _ ih =>
    rw [last, ih b kids']
    cases rest'.last <;> rfl

theorem last_isSome {F : Forest α} (h : F ≠ nil) : ∃ a, F.last = some a := by
  cases hlast : F.last with
  | none => exact absurd (last_eq_none hlast) h
  | some a => exact ⟨a, rfl⟩

theorem keys_map {β : Type} (f : α → β) (g : β → κ) (F : Forest α) :
    (F.map f).keys g = F.keys (g ∘ f) := by
  rw [keys, nodes_map, List.map_map, keys]

theorem setKids_of_notMem [DecidableEq κ] {k : κ} (hk : k ∉ F.keys key) (K : Forest α) :
    F.setKids key k K = F := by
  induction F with
  | nil => rfl
  | node a kids rest ihk ihr =>
    simp only [keys_node, List.mem_cons, List.mem_append, not_or] at hk
    rw [setKids, if_neg (Ne.symm hk.1), ihk hk.2.1, ihr hk.2.2]

theorem setKids_perm [DecidableEq κ] {k : κ} (hnodup : (F.keys key).Nodup) (hk : k ∈ F.keys key)
    (K : Forest α) :
    ((F.setKids key k K).keys key).Perm ((F.setKids key k nil).keys key ++ K.keys key) := by
  induction F with
  | nil => cases hk
  | node a kids rest ihk ihr =>
    rw [keys_node] at hnodup hk
    obtain ⟨hnot, hnodup⟩ := List.nodup_cons.mp hnodup
    obtain ⟨hkids, hrest, hdisjoint⟩ := List.nodup_append.mp hnodup
    simp only [List.mem_append, not_or] at hnot
    rw [setKids, setKids, keys_node, keys_node]
    by_cases ha : key a = k
    · subst ha
      rw [if_pos rfl, if_pos rfl, setKids_of_notMem hnot.2, setKids_of_notMem hnot.2, keys_nil,
        List.nil_append, List.cons_append]
      exact (List.perm_append_comm).cons _
    · rw [if_neg ha, if_neg ha, List.cons_append]
      apply List.Perm.cons
      obtain rfl | hk := List.mem_cons.mp hk
      · exact absurd rfl ha
      obtain hk | hk := List.mem_append.mp hk
      · have hnot' : k ∉ rest.keys key := fun hin => hdisjoint k hk k hin rfl
        rw [setKids_of_notMem hnot', setKids_of_notMem hnot']
        refine ((ihk hkids hk).append_right _).trans ?_
        rw [List.append_assoc, List.append_assoc]
        exact (List.perm_append_comm).append_left _
      · have hnot' : k ∉ kids.keys key := fun hin => hdisjoint k hin k hk rfl
        rw [setKids_of_notMem hnot', setKids_of_notMem hnot', List.append_assoc]
        exact (ihr hrest hk).append_left _

theorem mem_setKids_self [DecidableEq κ] {k : κ} (hk : k ∈ F.keys key) (K : Forest α) :
    k ∈ (F.setKids key k K).keys key := by
  induction F with
  | nil => cases hk
  | node a kids rest ihk ihr =>
    rw [keys_node] at hk
    rw [setKids, keys_node]
    obtain rfl | hk := List.mem_cons.mp hk
    · exact List.mem_cons_self
    by_cases ha : key a = k
    · rw [ha]
      exact List.mem_cons_self
    rw [if_neg ha]
    apply List.mem_cons_of_mem
    rw [List.mem_append] at hk ⊢
    exact hk.imp ihk ihr

end Nodes

section Memory

variable [Zero κ] {key : α → κ} {child sib child' sib' : κ → κ} {h : κ} {F G : Forest α}

def head (key : α → κ) : Forest α → κ
  | nil => 0
  | node a _ _ => key a

@[simp] theorem head_nil : (nil : Forest α).head key = 0 := rfl

@[simp] theorem head_node {a : α} {kids rest : Forest α} : (node a kids rest).head key = key a := rfl

def Rep (child sib : κ → κ) (key : α → κ) : κ → Forest α → Prop
  | h, nil => h = 0
  | h, node a kids rest =>
    h = key a ∧ key a ≠ 0 ∧ Rep child sib key (child (key a)) kids ∧ Rep child sib key (sib (key a)) rest

theorem Rep.head_eq (hrep : Rep child sib key h F) : h = F.head key := by
  cases F with
  | nil => exact hrep
  | node a kids rest => exact hrep.1

theorem Rep.ne_zero (hrep : Rep child sib key h F) : ∀ k ∈ F.keys key, k ≠ 0 := by
  induction F generalizing h with
  | nil => simp
  | node a kids rest ihk ihr =>
    obtain ⟨-, hne, hkids, hrest⟩ := hrep
    simp only [keys_node, List.mem_cons, List.mem_append]
    rintro k (rfl | hk | hk)
    · exact hne
    · exact ihk hkids k hk
    · exact ihr hrest k hk

theorem head_map {β : Type} (f : α → β) (g : β → κ) (F : Forest α) :
    (F.map f).head g = F.head (g ∘ f) := by
  cases F <;> rfl

theorem Rep.map {β : Type} (f : α → β) (g : β → κ) (hrep : Rep child sib (g ∘ f) h F) :
    Rep child sib g h (F.map f) := by
  induction F generalizing h with
  | nil => exact hrep
  | node a kids rest ihk ihr =>
    obtain ⟨hh, hne, hkids, hrest⟩ := hrep
    exact ⟨hh, hne, ihk hkids, ihr hrest⟩

theorem Rep.append_right (hrep : Rep child sib key h (F.append G)) :
    Rep child sib key (G.head key) G := by
  induction F generalizing h with
  | nil =>
    rw [append] at hrep
    rw [← hrep.head_eq]
    exact hrep
  | node a kids rest _ ih => exact ih hrep.2.2.2

theorem Rep.sib_last (hrep : Rep child sib key h (F.append G)) {a : α} (hlast : F.last = some a) :
    sib (key a) = G.head key := by
  induction F generalizing h with
  | nil => cases hlast
  | node b kids rest _ ih =>
    obtain ⟨-, -, -, hrest⟩ := hrep
    cases rest with
    | nil =>
      cases hlast
      exact hrest.head_eq
    | node c kids' rest' => exact ih hrest hlast

theorem Rep.unique {F G : Forest κ} (hF : Rep child sib id h F) (hG : Rep child sib id h G) : F = G := by
  induction F generalizing h G with
  | nil =>
    cases G with
    | nil => rfl
    | node b kids rest => exact absurd (hG.1.symm.trans hF) hG.2.1
  | node a kids rest ihk ihr =>
    obtain ⟨hh, ha, hkids, hrest⟩ := hF
    cases G with
    | nil => exact absurd (hh.symm.trans hG) ha
    | node b kids' rest' =>
      obtain ⟨hh', -, hkids', hrest'⟩ := hG
      obtain rfl : a = b := hh.symm.trans hh'
      rw [ihk hkids hkids', ihr hrest hrest']

theorem Rep.congr (hrep : Rep child sib key h F)
    (hsame : ∀ k ∈ F.keys key, child' k = child k ∧ sib' k = sib k) : Rep child' sib' key h F := by
  induction F generalizing h with
  | nil => exact hrep
  | node a kids rest ihk ihr =>
    obtain ⟨hh, hne, hkids, hrest⟩ := hrep
    have ha := hsame (key a) (by simp)
    refine ⟨hh, hne, ?_, ?_⟩
    · rw [ha.1]
      exact ihk hkids fun k hk => hsame k (by simp [hk])
    · rw [ha.2]
      exact ihr hrest fun k hk => hsame k (by simp [hk])

theorem Rep.append_congr (hrep : Rep child sib key h (F.append G)) {H : Forest α}
    (hnodup : (F.keys key).Nodup) (hchild : ∀ k ∈ F.keys key, child' k = child k)
    (hsib : ∀ k ∈ F.keys key, (∀ a, F.last = some a → key a ≠ k) → sib' k = sib k)
    (hlast : ∀ a, F.last = some a → Rep child' sib' key (sib' (key a)) H)
    (hnil : F = nil → Rep child' sib' key h H) : Rep child' sib' key h (F.append H) := by
  induction F generalizing h with
  | nil => exact hnil rfl
  | node a kids rest ihk ihr =>
    obtain ⟨hh, hne, hkids, hrest⟩ := hrep
    rw [keys_node] at hnodup hchild hsib
    obtain ⟨hnot, hnodup⟩ := List.nodup_cons.mp hnodup
    obtain ⟨-, hnodup, hdisjoint⟩ := List.nodup_append.mp hnodup
    have hkids' : Rep child' sib' key (child' (key a)) kids := by
      rw [hchild _ List.mem_cons_self]
      apply hkids.congr
      rintro k hk
      refine ⟨hchild k (by simp [hk]), hsib k (by simp [hk]) ?_⟩
      rintro b hb rfl
      cases rest with
      | nil =>
        cases hb
        exact hnot (List.mem_append_left _ hk)
      | node c kids' rest' =>
        have hmem : key b ∈ (node c kids' rest').keys key := List.mem_map_of_mem (last_mem hb)
        exact hdisjoint _ hk _ hmem rfl
    refine ⟨hh, hne, hkids', ?_⟩
    cases hcase : rest with
    | nil =>
      subst hcase
      exact hlast a rfl
    | node c kids' rest' =>
      have hsame : sib' (key a) = sib (key a) := by
        apply hsib _ List.mem_cons_self
        rintro b hb heq
        rw [hcase] at hb
        have hmem : key b ∈ rest.keys key := by
          rw [hcase]
          exact List.mem_map_of_mem (last_mem hb)
        rw [heq] at hmem
        exact hnot (List.mem_append_right _ hmem)
      rw [hsame, ← hcase]
      apply ihr hrest hnodup
      · exact fun k hk => hchild k (by simp [hk])
      · rintro k hk hother
        apply hsib k (by simp [hk])
        rintro b hb
        rw [hcase] at hb hother
        exact hother b hb
      · rintro b hb
        apply hlast b
        rw [hcase] at hb ⊢
        exact hb
      · rintro hnone
        rw [hnone] at hcase
        cases hcase

theorem Rep.exists_kids [DecidableEq κ] (hrep : Rep child sib key h F) (hnodup : (F.keys key).Nodup)
    {k : κ} (hk : k ∈ F.keys key) :
    ∃ K, Rep child sib key (child k) K ∧ F.setKids key k K = F := by
  induction F generalizing h with
  | nil => cases hk
  | node a kids rest ihk ihr =>
    obtain ⟨-, -, hkids, hrest⟩ := hrep
    rw [keys_node] at hnodup hk
    obtain ⟨hnot, hnodup⟩ := List.nodup_cons.mp hnodup
    obtain ⟨hkids', hrest', hdisjoint⟩ := List.nodup_append.mp hnodup
    simp only [List.mem_append, not_or] at hnot
    by_cases ha : key a = k
    · subst ha
      refine ⟨kids, hkids, ?_⟩
      rw [setKids, if_pos rfl, setKids_of_notMem hnot.2]
    obtain rfl | hk := List.mem_cons.mp hk
    · exact absurd rfl ha
    obtain hk | hk := List.mem_append.mp hk
    · obtain ⟨K, hK, hsame⟩ := ihk hkids hkids' hk
      have hnot' : k ∉ rest.keys key := fun hin => hdisjoint k hk k hin rfl
      refine ⟨K, hK, ?_⟩
      rw [setKids, if_neg ha, hsame, setKids_of_notMem hnot']
    · obtain ⟨K, hK, hsame⟩ := ihr hrest hrest' hk
      have hnot' : k ∉ kids.keys key := fun hin => hdisjoint k hin k hk rfl
      refine ⟨K, hK, ?_⟩
      rw [setKids, if_neg ha, hsame, setKids_of_notMem hnot']

theorem Rep.setKids [DecidableEq κ] (hrep : Rep child sib key h F) (hnodup : (F.keys key).Nodup)
    {k : κ} (hk : k ∈ F.keys key) {K : Forest α} (hK : Rep child' sib' key (child' k) K)
    (hsib : ∀ j ∈ (F.setKids key k nil).keys key, sib' j = sib j)
    (hchild : ∀ j ∈ (F.setKids key k nil).keys key, j ≠ k → child' j = child j) :
    Rep child' sib' key h (F.setKids key k K) := by
  induction F generalizing h with
  | nil => cases hk
  | node a kids rest ihk ihr =>
    obtain ⟨hh, hne, hkids, hrest⟩ := hrep
    rw [keys_node] at hnodup hk
    obtain ⟨hnot, hnodup⟩ := List.nodup_cons.mp hnodup
    obtain ⟨hkids', hrest', hdisjoint⟩ := List.nodup_append.mp hnodup
    simp only [List.mem_append, not_or] at hnot
    rw [Forest.setKids, keys_node] at hsib hchild
    rw [Forest.setKids]
    have hsiba : sib' (key a) = sib (key a) := hsib _ List.mem_cons_self
    by_cases ha : key a = k
    · subst ha
      rw [if_pos rfl, setKids_of_notMem hnot.2] at hsib hchild
      rw [if_pos rfl, setKids_of_notMem hnot.2]
      refine ⟨hh, hne, hK, ?_⟩
      rw [hsiba]
      apply hrest.congr
      rintro j hj
      have hja : j ≠ key a := by
        rintro rfl
        exact hnot.2 hj
      exact ⟨hchild j (by simp [hj]) hja, hsib j (by simp [hj])⟩
    · have hchilda : child' (key a) = child (key a) := hchild _ List.mem_cons_self ha
      rw [if_neg ha] at hsib hchild
      rw [if_neg ha]
      obtain rfl | hk := List.mem_cons.mp hk
      · exact absurd rfl ha
      obtain hk | hk := List.mem_append.mp hk
      · have hnot' : k ∉ rest.keys key := fun hin => hdisjoint k hk k hin rfl
        rw [setKids_of_notMem hnot'] at hsib hchild
        rw [setKids_of_notMem hnot']
        refine ⟨hh, hne, ?_, ?_⟩
        · rw [hchilda]
          exact ihk hkids hkids' hk (fun j hj => hsib j (by simp [hj])) fun j hj => hchild j (by simp [hj])
        · rw [hsiba]
          apply hrest.congr
          rintro j hj
          have hjk : j ≠ k := by
            rintro rfl
            exact hnot' hj
          exact ⟨hchild j (by simp [hj]) hjk, hsib j (by simp [hj])⟩
      · have hnot' : k ∉ kids.keys key := fun hin => hdisjoint k hin k hk rfl
        rw [setKids_of_notMem hnot'] at hsib hchild
        rw [setKids_of_notMem hnot']
        refine ⟨hh, hne, ?_, ?_⟩
        · rw [hchilda]
          apply hkids.congr
          rintro j hj
          have hjk : j ≠ k := by
            rintro rfl
            exact hnot' hj
          exact ⟨hchild j (by simp [hj]) hjk, hsib j (by simp [hj])⟩
        · rw [hsiba]
          exact ihr hrest hrest' hk (fun j hj => hsib j (by simp [hj])) fun j hj => hchild j (by simp [hj])

/-- Where the links lead from a key, by the first child for `true` and by the next sibling for
`false`. -/
def follow [DecidableEq κ] (child sib : κ → κ) : κ → List Bool → κ
  | h, [] => h
  | h, d :: path => if h = 0 then 0 else follow child sib (if d then child h else sib h) path

@[simp] theorem follow_zero [DecidableEq κ] (path : List Bool) : follow child sib 0 path = 0 := by
  cases path with
  | nil => rfl
  | cons d path => rw [follow, if_pos rfl]

theorem Rep.follow_mem [DecidableEq κ] (hrep : Rep child sib key h F) {path : List Bool}
    (hne : follow child sib h path ≠ 0) :
    follow child sib h path ∈ F.keys key ∧ path.length < F.nodes.length := by
  induction F generalizing h path with
  | nil =>
    rw [show h = 0 from hrep, follow_zero] at hne
    exact absurd rfl hne
  | node a kids rest ihk ihr =>
    obtain ⟨rfl, ha, hkids, hrest⟩ := hrep
    rw [keys_node, nodes]
    cases path with
    | nil =>
      rw [follow]
      simp
    | cons d path =>
      rw [follow, if_neg ha] at hne ⊢
      cases d with
      | true =>
        obtain ⟨hmem, hlen⟩ := ihk hkids hne
        refine ⟨by simp_all, ?_⟩
        rw [List.length_cons, List.length_cons, List.length_append]
        omega
      | false =>
        obtain ⟨hmem, hlen⟩ := ihr hrest hne
        refine ⟨by simp_all, ?_⟩
        rw [List.length_cons, List.length_cons, List.length_append]
        omega

theorem Rep.existsUnique_path [DecidableEq κ] (hrep : Rep child sib key h F)
    (hnodup : (F.keys key).Nodup) {k : κ} (hk : k ∈ F.keys key) :
    ∃! path, follow child sib h path = k := by
  induction F generalizing h with
  | nil => cases hk
  | node a kids rest ihk ihr =>
    have hzero : k ≠ 0 := hrep.ne_zero k hk
    obtain ⟨rfl, ha, hkids, hrest⟩ := hrep
    rw [keys_node] at hnodup hk
    obtain ⟨hnot, hnodup⟩ := List.nodup_cons.mp hnodup
    obtain ⟨hkids', hrest', hdisjoint⟩ := List.nodup_append.mp hnodup
    simp only [List.mem_append, not_or] at hnot
    have hin : ∀ {d path}, follow child sib (key a) (d :: path) = k →
        k ∈ if d then kids.keys key else rest.keys key := by
      rintro d path hpath
      rw [follow, if_neg ha] at hpath
      rw [← hpath] at hzero ⊢
      cases d with
      | true => exact (hkids.follow_mem hzero).1
      | false => exact (hrest.follow_mem hzero).1
    obtain rfl | hk := List.mem_cons.mp hk
    · refine ⟨[], rfl, ?_⟩
      rintro (_ | ⟨d, path⟩) hpath
      · rfl
      · have hmem := hin hpath
        cases d with
        | true => exact absurd hmem hnot.1
        | false => exact absurd hmem hnot.2
    have hka : key a ≠ k := by
      rintro rfl
      simp_all
    obtain hk | hk := List.mem_append.mp hk
    · obtain ⟨path, hpath, hunique⟩ := ihk hkids hkids' hk
      refine ⟨true :: path, ?_, ?_⟩
      · dsimp only
        rw [follow, if_neg ha]
        exact hpath
      · rintro (_ | ⟨d, path'⟩) hpath'
        · exact absurd hpath' hka
        · have hmem := hin hpath'
          cases d with
          | true =>
            rw [follow, if_neg ha] at hpath'
            rw [hunique path' hpath']
          | false => exact absurd rfl (hdisjoint k hk k hmem)
    · obtain ⟨path, hpath, hunique⟩ := ihr hrest hrest' hk
      refine ⟨false :: path, ?_, ?_⟩
      · dsimp only
        rw [follow, if_neg ha]
        exact hpath
      · rintro (_ | ⟨d, path'⟩) hpath'
        · exact absurd hpath' hka
        · have hmem := hin hpath'
          cases d with
          | false =>
            rw [follow, if_neg ha] at hpath'
            rw [hunique path' hpath']
          | true => exact absurd rfl (hdisjoint k hmem k hk)

end Memory

end Forest
