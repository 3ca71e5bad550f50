import Factbase.Files.Tree
import Factbase.Proofs.Outcome
import Factbase.Proofs.SortedMap

/-!
# Directories stay

Following a path asks only whether what is on the way are directories. So
a directory that a path names is named by it in every tree that has the
same directories and more (`FileTree.find_directory`). Making directories
adds some and changes nothing else (`FileTree.Grown`).
-/

namespace Factbase.FileTree

variable {t u v : FileTree} {p : Path} {place : Place}

theorem node?_put_self (t : FileTree) (place : Place) (n : FileNode) :
    (t.put place n).node? place = some n :=
  SortedMap.get?_insert_self ..

theorem node?_put_of_ne {place place' : Place} (h : place' ≠ place) (t : FileTree) (n : FileNode) :
    (t.put place n).node? place' = t.node? place' :=
  SortedMap.get?_insert_of_ne h ..

theorem put_put (t : FileTree) (place : Place) (n n' : FileNode) :
    (t.put place n).put place n' = t.put place n' := by
  rw [put, put, put, SortedMap.insert_insert]

theorem put_self {t : FileTree} {place : Place} {n : FileNode} (h : t.node? place = some n) :
    t.put place n = t := by
  rw [put, SortedMap.insert_self h]

/-! ## Following paths -/

/-- All directories of one tree are in the other, and paths start at the same place. -/
structure Directories (t u : FileTree) : Prop where
  working : u.working = t.working
  kept : ∀ q, t.node? q = some .directory → u.node? q = some .directory

theorem Directories.trans (h : t.Directories u) (h' : u.Directories v) : t.Directories v :=
  ⟨h'.working.trans h.working, fun q hq => h'.kept q (h.kept q hq)⟩

theorem Directories.put {n : FileNode} (h : t.node? place ≠ some .directory) :
    t.Directories (t.put place n) where
  working := rfl
  kept q hq := by
    have hne : q ≠ place := fun he => h (he ▸ hq)
    rw [node?_put_of_ne hne]
    exact hq

theorem directory_of_step {here next : Place} {name : String} (h : t.step here name = .ok next) :
    t.node? here = some .directory ∧ next = enter here name := by
  unfold step at h
  obtain ⟨⟨⟩, hcheck, hrest⟩ := Outcome.bind_ok_iff.mp h
  refine ⟨?_, ?_⟩
  · unfold checkDirectory at hcheck
    split at hcheck
    · assumption
    · cases hcheck
    · cases hcheck
  · split at hrest
    · cases hrest
    · cases hrest
      rfl

theorem step_directories (h : t.Directories u) {here next : Place} {name : String}
    (hstep : t.step here name = .ok next) : u.step here name = .ok next := by
  have hhere := h.kept here (directory_of_step hstep).1
  have hcheck : u.checkDirectory here = t.checkDirectory here := by
    rw [checkDirectory, checkDirectory, hhere, (directory_of_step hstep).1]
  unfold step at hstep ⊢
  rwa [hcheck]

theorem steps_directories (h : t.Directories u) {steps : List String} {here next : Place}
    (hsteps : steps.foldlM t.step here = .ok next) : steps.foldlM u.step here = .ok next := by
  induction steps generalizing here with
  | nil => exact hsteps
  | cons name steps ih =>
      rw [List.foldlM_cons] at hsteps ⊢
      obtain ⟨mid, hstep, hrest⟩ := Outcome.bind_ok_iff.mp hsteps
      rw [step_directories h hstep]
      exact ih hrest

theorem findNew_directories (h : t.Directories u) {steps : List String}
    (hfind : t.findNew p steps = .ok place) : u.findNew p steps = .ok place := by
  unfold findNew at hfind ⊢
  obtain ⟨⟨⟩, hcheck, hrest⟩ := Outcome.bind_ok_iff.mp hfind
  have hstart : u.start p = t.start p := by rw [start, start, h.working]
  rw [hcheck, hstart]
  exact steps_directories h hrest

theorem find_ok_iff {n : FileNode} :
    t.find p = .ok (place, n) ↔ t.findNew p p.steps = .ok place ∧ t.node? place = some n := by
  have hexisting : ∀ q, t.existing q = .ok (place, n) ↔ q = place ∧ t.node? place = some n := by
    intro q
    unfold existing
    constructor
    · intro h
      split at h
      · cases h
        exact ⟨rfl, by assumption⟩
      · cases h
    · rintro ⟨rfl, hn⟩
      rw [hn]
  unfold find
  rw [Outcome.bind_ok_iff]
  constructor
  · rintro ⟨q, hq, hrest⟩
    obtain ⟨rfl, hn⟩ := (hexisting q).mp hrest
    exact ⟨hq, hn⟩
  · rintro ⟨hq, hn⟩
    exact ⟨place, hq, (hexisting place).mpr ⟨rfl, hn⟩⟩

/-- A directory is found where it was. -/
theorem find_directory (h : t.Directories u) (hfind : t.find p = .ok (place, .directory)) :
    u.find p = .ok (place, .directory) := by
  obtain ⟨hnew, hnode⟩ := find_ok_iff.mp hfind
  exact find_ok_iff.mpr ⟨findNew_directories h hnew, h.kept place hnode⟩

/-! ## Making directories -/

/-- A tree with more directories where nothing was before. -/
structure Grown (t u : FileTree) : Prop where
  working : u.working = t.working
  node : ∀ q, u.node? q = t.node? q ∨ t.node? q = none ∧ u.node? q = some .directory

namespace Grown

theorem refl (t : FileTree) : t.Grown t := ⟨rfl, fun _ => .inl rfl⟩

theorem trans (h : t.Grown u) (h' : u.Grown v) : t.Grown v where
  working := h'.working.trans h.working
  node q := by
    rcases h.node q with hq | ⟨hnone, hdir⟩
    · rw [← hq]
      exact h'.node q
    · rcases h'.node q with hq' | ⟨hnone', -⟩
      · exact .inr ⟨hnone, hq'.trans hdir⟩
      · rw [hdir] at hnone'
        cases hnone'

theorem directories (h : t.Grown u) : t.Directories u where
  working := h.working
  kept q hq := by
    rcases h.node q with heq | ⟨hnone, -⟩
    · exact heq.trans hq
    · rw [hq] at hnone
      cases hnone

/-- What is no directory is in the one tree where it is in the other. -/
theorem node_iff (h : t.Grown u) {q : Place} {n : FileNode} (hn : n ≠ .directory) :
    u.node? q = some n ↔ t.node? q = some n := by
  rcases h.node q with heq | ⟨hnone, hdir⟩
  · rw [heq]
  · rw [hnone, hdir]
    exact ⟨fun he => absurd (Option.some.inj he).symm hn, fun he => by cases he⟩

end Grown

theorem grown_makeDirectory (h : t.makeDirectory p = .ok u) : t.Grown u := by
  unfold makeDirectory at h
  obtain ⟨place, -, hrest⟩ := Outcome.bind_ok_iff.mp h
  split at hrest
  · cases hrest
  · rename_i hnone
    cases hrest
    refine ⟨rfl, fun q => ?_⟩
    by_cases hq : q = place
    · subst hq
      exact .inr ⟨by simpa using hnone, node?_put_self ..⟩
    · exact .inl (node?_put_of_ne hq ..)

theorem grown_makeAll (t : FileTree) (ps : List Path) : t.Grown (t.makeAll ps).1 := by
  induction ps generalizing t with
  | nil => exact .refl t
  | cons p ps ih =>
      unfold makeAll
      split
      · rename_i next hnext
        exact (grown_makeDirectory hnext).trans (ih next)
      · split
        · exact ih t
        · exact .refl t

theorem grown_makeDirectories (t : FileTree) (p : Path) : t.Grown (t.makeDirectories p).1 := by
  unfold makeDirectories
  split
  · exact grown_makeAll t _
  · exact .refl t

/-- Steps that end with `.` lead to a directory. -/
theorem directory_of_stay {steps : List String} {here : Place}
    (h : (steps ++ ["."]).foldlM t.step here = .ok place) :
    t.node? place = some .directory ∧ steps.foldlM t.step here = .ok place := by
  rw [List.foldlM_append] at h
  obtain ⟨last, hlast, hrest⟩ := Outcome.bind_ok_iff.mp h
  rw [List.foldlM_cons] at hrest
  obtain ⟨next, hstep, hend⟩ := Outcome.bind_ok_iff.mp hrest
  cases hend
  obtain ⟨hdir, rfl⟩ := directory_of_step hstep
  exact ⟨hdir, hlast⟩

/-- The names of a path lead where its steps lead: a step for a slash at the end stays. -/
theorem findNew_names (h : t.findNew p p.steps = .ok place) : t.findNew p p.names = .ok place := by
  unfold Path.steps at h
  split at h
  · unfold findNew at h ⊢
    obtain ⟨⟨⟩, hcheck, hrest⟩ := Outcome.bind_ok_iff.mp h
    rw [hcheck]
    exact (directory_of_stay hrest).2
  · exact h

/-- Making a directory that is there does nothing. -/
theorem makeDirectories_of_find (h : t.find p = .ok (place, .directory)) :
    t.makeDirectories p = (t, .ok ()) := by
  have hexists : t.makeDirectory p = .error .exists := by
    obtain ⟨hnew, hnode⟩ := find_ok_iff.mp h
    unfold makeDirectory
    rw [findNew_names hnew]
    show (if (t.node? place).isSome then _ else _) = _
    rw [hnode]
    rfl
  have hdirectory : t.isDirectory p = true := by
    rw [isDirectory, h]
  have hmissing : t.missing p.ancestors = .ok [] := by
    unfold Path.ancestors
    split
    · rfl
    · rw [missing, hexists]
      simp [hdirectory]
  rw [makeDirectories, hmissing]
  rfl

/-- Pieces that are all empty are those of slashes. -/
theorem pieces_empty {cs : List Char} (h : ∀ piece ∈ Path.pieces cs, piece = []) :
    ∀ c ∈ cs, c = '/' := by
  induction cs with
  | nil => simp
  | cons c cs ih =>
      rw [Path.pieces] at h
      split at h
      · rename_i hc
        exact List.forall_mem_cons.mpr ⟨hc, ih fun piece hp => h piece (List.mem_cons_of_mem _ hp)⟩
      · split at h
        · have := h [c] (List.mem_singleton.mpr rfl)
          cases this
        · rename_i piece pieces hpieces
          have := h (c :: piece) (List.mem_cons_self ..)
          cases this

/-- A path that describes no steps of its own stays where it starts, and that must be a
directory. -/
theorem directory_of_stages_nil (hstages : p.stages = []) {n : FileNode}
    (h : t.find p = .ok (place, n)) : n = .directory := by
  obtain ⟨hnew, hnode⟩ := find_ok_iff.mp h
  have hpieces : ∀ piece ∈ Path.pieces p.text.toList, piece = [] ∨ piece = ['.'] := by
    intro piece hp
    obtain ⟨i, hi⟩ := List.getElem?_of_mem hp
    have hmem : (piece, i) ∈ (Path.pieces p.text.toList).zipIdx :=
      List.mem_zipIdx_iff_getElem?.mpr hi
    have hnone := List.filterMap_eq_nil_iff.mp hstages _ hmem
    dsimp only at hnone
    split at hnone
    · rename_i hcond
      simp only [Bool.or_eq_true, Bool.and_eq_true, decide_eq_true_eq] at hcond
      exact hcond.imp_right And.left
    · cases hnone
  have hnames : ∀ name ∈ p.names, name = "." := by
    intro name hname
    obtain ⟨piece, hp, rfl⟩ := List.mem_map.mp hname
    obtain ⟨hp, hne⟩ := List.mem_filter.mp hp
    rcases hpieces piece hp with rfl | rfl
    · simp at hne
    · rfl
  -- so the last step is `.`, unless the path is empty
  obtain ⟨steps, hsteps⟩ : ∃ steps, p.steps = steps ++ ["."] := by
    unfold Path.steps
    split
    · exact ⟨_, rfl⟩
    · rename_i hslash
      rcases List.eq_nil_or_concat p.names with hnil | ⟨names, last, hlast⟩
      · have hempty : ∀ piece ∈ Path.pieces p.text.toList, piece = [] := by
          intro piece hp
          by_contra hne
          have hmem : String.ofList piece ∈ p.names :=
            List.mem_map.mpr ⟨piece, List.mem_filter.mpr ⟨hp, by simpa using hne⟩, rfl⟩
          rw [hnil] at hmem
          cases hmem
        have hslashes := pieces_empty hempty
        unfold findNew checkPath at hnew
        obtain ⟨⟨⟩, hcheck, -⟩ := Outcome.bind_ok_iff.mp hnew
        obtain ⟨⟨⟩, htext, -⟩ := Outcome.bind_ok_iff.mp hcheck
        rcases List.eq_nil_or_concat p.text.toList with htnil | ⟨cs, c, hcs⟩
        · have hempty : p.text.isEmpty = true := by
            rw [String.toList_eq_nil_iff] at htnil
            rw [htnil]
            rfl
          unfold checkText at htext
          simp only [hempty, if_true] at htext
          split at htext <;> cases htext
        · refine absurd ?_ hslash
          have hc : c = '/' := hslashes c (by rw [hcs]; simp)
          rw [hcs, hc]
          simp
      · refine ⟨names, ?_⟩
        have hdot : last = "." := hnames last (by rw [hlast]; simp)
        rw [hlast, hdot, List.concat_eq_append]
  unfold findNew at hnew
  obtain ⟨-, -, hrest⟩ := Outcome.bind_ok_iff.mp hnew
  rw [hsteps] at hrest
  have hdir := (directory_of_stay hrest).1
  rw [hnode] at hdir
  exact Option.some.inj hdir

theorem directory_of_makeDirectory (hmade : t.makeDirectory p = .ok u) {n : FileNode}
    (h : u.find p = .ok (place, n)) : n = .directory := by
  have hdirs := (grown_makeDirectory hmade).directories
  obtain ⟨hnew, hnode⟩ := find_ok_iff.mp h
  unfold makeDirectory at hmade
  obtain ⟨made, hfind, hrest⟩ := Outcome.bind_ok_iff.mp hmade
  have hsame := findNew_directories hdirs hfind
  rw [findNew_names hnew] at hsame
  cases hsame
  split at hrest
  · cases hrest
  · cases hrest
    rw [node?_put_self] at hnode
    exact (Option.some.inj hnode).symm

theorem directory_of_isDirectory (hdir : t.isDirectory p = true) {n : FileNode}
    (h : t.find p = .ok (place, n)) : n = .directory := by
  unfold isDirectory at hdir
  rw [h] at hdir
  cases n with
  | directory => rfl
  | file bytes => cases hdir
  | database t => cases hdir

theorem directory_of_makeAll {ps : List Path} (hmade : t.makeAll (ps ++ [p]) = (u, .ok ()))
    {n : FileNode} (h : u.find p = .ok (place, n)) : n = .directory := by
  induction ps generalizing t with
  | nil =>
      rw [List.nil_append, makeAll] at hmade
      split at hmade
      · rename_i next hnext
        cases hmade
        exact directory_of_makeDirectory hnext h
      · split at hmade
        · rename_i hcond
          cases hmade
          exact directory_of_isDirectory (Bool.and_eq_true_iff.mp hcond).2 h
        · cases hmade
  | cons q ps ih =>
      rw [List.cons_append, makeAll] at hmade
      split at hmade
      · exact ih hmade
      · split at hmade
        · exact ih hmade
        · cases hmade

/-- A path is among those that are missing, or there is a directory at it. -/
theorem missing_cons_ok {ps qs : List Path} (h : t.missing (p :: ps) = .ok qs) :
    t.isDirectory p = true ∧ qs = [] ∨ ∃ more, qs = p :: more := by
  unfold missing at h
  split at h
  · cases h
    exact .inr ⟨[], rfl⟩
  · obtain ⟨more, -, rfl⟩ := Outcome.map_ok_iff.mp h
    exact .inr ⟨more, rfl⟩
  · split at h
    · rename_i hcond
      cases h
      exact .inl ⟨(Bool.and_eq_true_iff.mp hcond).2, rfl⟩
    · cases h

/-- What is at a path whose directories have been made is a directory. -/
theorem directory_of_makeDirectories (hmade : t.makeDirectories p = (u, .ok ())) {n : FileNode}
    (h : u.find p = .ok (place, n)) : n = .directory := by
  unfold makeDirectories at hmade
  by_cases hstages : p.stages = []
  · exact directory_of_stages_nil hstages h
  · obtain ⟨ps, hps⟩ : ∃ ps, p.ancestors = p :: ps := by
      unfold Path.ancestors
      split
      · rename_i hrev
        exact absurd (List.reverse_eq_nil_iff.mp hrev) hstages
      · exact ⟨_, rfl⟩
    rw [hps] at hmade
    cases hmissing : t.missing (p :: ps) with
    | error e =>
        rw [hmissing] at hmade
        cases hmade
    | ok qs =>
        rw [hmissing] at hmade
        rcases missing_cons_ok hmissing with ⟨hdir, rfl⟩ | ⟨more, rfl⟩
        · cases hmade
          exact directory_of_isDirectory hdir h
        · dsimp only at hmade
          rw [List.reverse_cons] at hmade
          exact directory_of_makeAll hmade h

end Factbase.FileTree
