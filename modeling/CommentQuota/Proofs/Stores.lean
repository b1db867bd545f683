/-
  CommentQuota.Proofs.Stores — what the operations on a store leave as it is.

  Paths lead through directories, and no operation takes a directory away, so a path that leads
  somewhere leads there ever after. Making a directory or a new file fills an empty location and
  changes nothing else. In a store that is a tree, a path that leads to a file ends in the file's name.

  - `KeepsDirectories.follow`: paths lead where they led.
  - `GrowsTo`: only empty locations are filled; `GrowsTo.at?`: what a path leads to stays.
  - `getLast?_follow`: where a path leads, its last name comes last; in a tree, a path to a file does
    not end in going back (`IsTree.name_ne_back`).
  - `makesDirectory`: what making a directory and those on the way to it leaves.
  - `exists_temporary`: a temporary file stands beside its document.
-/

import CommentQuota.Store

namespace CommentQuota

namespace Path

end Path

namespace Store

@[simp] theorem lookup_root (s : Store) : s.lookup [] = some .directory := by simp [lookup]

theorem ne_root_of_lookup (s : Store) {l : Location} (h : s.lookup l ≠ some .directory) : l ≠ [] := by
  rintro rfl
  exact h s.lookup_root

theorem follow_eq_ok {s : Store} {p : Path} {l : Location} :
    s.follow p = .ok l ↔
      p.hasZero = false ∧ s.followFrom (if p.root = "" then s.home else []) p.names = .ok l := by
  unfold follow
  cases p.hasZero with
  | true => simp
  | false =>
    simp only [Bool.false_eq_true, if_false, true_and]
    split
    · rename_i h
      rw [h]
      simp
    · rename_i h
      rw [h]
      simp

/-- Every name is looked up in a directory, the first one where the path starts. -/
theorem followFrom_cons {s : Store} {l m : Location} {name : String} {names : List String} :
    s.followFrom l (name :: names) = .ok m ↔
      s.lookup l = some .directory ∧ s.followFrom (if name = ".." then l.dropLast else l ++ [name]) names = .ok m := by
  rw [followFrom]
  split
  · rename_i h
    simp [h]
  · rename_i h
    simp [h]
  · rename_i h
    simp [h]

theorem at?_eq_some {s : Store} {p : Path} {e : Entry} :
    s.at? p = some e ↔ ∃ l, s.follow p = .ok l ∧ s.lookup l = some e := by
  unfold at?
  cases s.follow p with
  | error _ => simp
  | ok l => simp

/-- Directories stay directories. -/
structure KeepsDirectories (s s' : Store) : Prop where
  home : s'.home = s.home
  directory : ∀ l, s.lookup l = some .directory → s'.lookup l = some .directory

namespace KeepsDirectories

theorem refl (s : Store) : s.KeepsDirectories s := ⟨rfl, fun _ h => h⟩

theorem trans {s s' s'' : Store} (h : s.KeepsDirectories s') (h' : s'.KeepsDirectories s'') : s.KeepsDirectories s'' :=
  ⟨h'.home.trans h.home, fun l hl => h'.directory l (h.directory l hl)⟩

theorem followFrom {s s' : Store} (h : s.KeepsDirectories s') {l m : Location} {names : List String}
    (hm : s.followFrom l names = .ok m) : s'.followFrom l names = .ok m := by
  induction names generalizing l with
  | nil => exact hm
  | cons name names ih =>
    obtain ⟨hdir, hm⟩ := followFrom_cons.mp hm
    exact followFrom_cons.mpr ⟨h.directory l hdir, ih hm⟩

theorem follow {s s' : Store} (h : s.KeepsDirectories s') {p : Path} {l : Location} (hl : s.follow p = .ok l) :
    s'.follow p = .ok l := by
  rw [follow_eq_ok] at hl ⊢
  rw [h.home]
  exact ⟨hl.1, h.followFrom hl.2⟩

end KeepsDirectories

/-! ## Trees -/

/-- Everything stands in a directory, and the working directory is one. -/
structure IsTree (s : Store) : Prop where
  home : s.lookup s.home = some .directory
  parent : ∀ l e, s.lookup l = some e → s.lookup l.dropLast = some .directory

theorem isTree_iff {s : Store} :
    s.IsTree ↔ s.lookup s.home = some .directory ∧ ∀ x ∈ s.entries, s.lookup x.1.dropLast = some .directory := by
  constructor
  · intro hs
    refine ⟨hs.home, fun x hx => ?_⟩
    cases hlookup : s.lookup x.1 with
    | some e => exact hs.parent x.1 e hlookup
    | none =>
      unfold lookup at hlookup
      split at hlookup
      · cases hlookup
      · rw [Option.map_eq_none_iff, List.find?_eq_none] at hlookup
        exact absurd (by simp) (hlookup x hx)
  · rintro ⟨hhome, hentries⟩
    refine ⟨hhome, fun l e he => ?_⟩
    by_cases hl : l = []
    · rw [hl]
      exact s.lookup_root
    · rw [lookup, if_neg hl, Option.map_eq_some_iff] at he
      obtain ⟨x, hx, -⟩ := he
      have hloc : x.1 = l := by simpa using List.find?_some hx
      rw [← hloc]
      exact hentries x (List.mem_of_find?_eq_some hx)

instance (s : Store) : Decidable s.IsTree := decidable_of_iff _ isTree_iff.symm

theorem IsTree.followFrom {s : Store} (hs : s.IsTree) {l m : Location} {names : List String}
    (hl : s.lookup l.dropLast = some .directory) (hm : s.followFrom l names = .ok m) :
    s.lookup m.dropLast = some .directory := by
  induction names generalizing l with
  | nil => exact Except.ok.inj hm ▸ hl
  | cons name names ih =>
    obtain ⟨hdir, hm⟩ := followFrom_cons.mp hm
    refine ih ?_ hm
    split
    · exact hs.parent _ _ hl
    · rw [List.dropLast_concat]
      exact hdir

/-- Where a path leads, there is a directory to hold what stands there. -/
theorem IsTree.follow {s : Store} (hs : s.IsTree) {p : Path} {l : Location} (hl : s.follow p = .ok l) :
    s.lookup l.dropLast = some .directory := by
  refine hs.followFrom ?_ (follow_eq_ok.mp hl).2
  split
  · exact hs.parent _ _ hs.home
  · exact s.lookup_root

/-- Only empty locations are filled, and a tree stays one. -/
structure GrowsTo (s s' : Store) : Prop where
  home : s'.home = s.home
  entry : ∀ l e, s.lookup l = some e → s'.lookup l = some e
  isTree : s.IsTree → s'.IsTree

namespace GrowsTo

theorem refl (s : Store) : s.GrowsTo s := ⟨rfl, fun _ _ h => h, id⟩

theorem trans {s s' s'' : Store} (h : s.GrowsTo s') (h' : s'.GrowsTo s'') : s.GrowsTo s'' :=
  ⟨h'.home.trans h.home, fun l e hl => h'.entry l e (h.entry l e hl), fun hs => h'.isTree (h.isTree hs)⟩

theorem keepsDirectories {s s' : Store} (h : s.GrowsTo s') : s.KeepsDirectories s' :=
  ⟨h.home, fun l => h.entry l .directory⟩

theorem at? {s s' : Store} (h : s.GrowsTo s') {p : Path} {e : Entry} (he : s.at? p = some e) : s'.at? p = some e := by
  obtain ⟨l, hl, hlookup⟩ := at?_eq_some.mp he
  exact at?_eq_some.mpr ⟨l, h.keepsDirectories.follow hl, h.entry l e hlookup⟩

/-- An entry is put where a path leads and nothing stands. -/
theorem put {s : Store} {p : Path} {l : Location} (hl : s.follow p = .ok l) (h : s.lookup l = none) (e : Entry) :
    s.GrowsTo (s.put l e) := by
  have hentry : ∀ m x, s.lookup m = some x → (s.put l e).lookup m = some x := by
    intro m x hm
    have hne : m ≠ l := by
      rintro rfl
      simp [h] at hm
    rw [lookup_put_of_ne s e hne, hm]
  refine ⟨rfl, hentry, fun hs => ⟨hentry _ _ hs.home, ?_⟩⟩
  intro m x hm
  by_cases hne : m = l
  · exact hne ▸ hentry _ _ (hs.follow hl)
  · rw [lookup_put_of_ne s e hne] at hm
    exact hentry _ _ (hs.parent m x hm)

end GrowsTo

/-! ## Operations -/

theorem read_eq_ok {s : Store} {p : Path} {bytes : Bytes} : s.read p = .ok bytes ↔ s.at? p = some (.file bytes) := by
  unfold read at?
  cases s.follow p with
  | error e => simp [bind, Except.bind]
  | ok l =>
    simp only [bind, Except.bind]
    split
    · rename_i h
      simp [h]
    · rename_i h
      simp [h]
    · rename_i h
      simp [h]

theorem write_eq_ok {s s' : Store} {p : Path} {bytes : Bytes} (h : s.write p bytes = .ok s') :
    ∃ l, s.follow p = .ok l ∧ s.lookup l ≠ some .directory ∧ s' = s.put l (.file bytes) := by
  unfold write at h
  cases hl : s.follow p with
  | error e => simp [hl, bind, Except.bind] at h
  | ok l =>
    simp only [hl, bind, Except.bind] at h
    split at h
    · cases h
    · rename_i hdir
      exact ⟨l, rfl, hdir, (Except.ok.inj h).symm⟩

theorem makeDirectory_eq_ok {s s' : Store} {p : Path} (h : s.makeDirectory p = .ok s') :
    ∃ l, s.follow p = .ok l ∧ s.lookup l = none ∧ s' = s.put l .directory := by
  unfold makeDirectory at h
  cases hl : s.follow p with
  | error e => simp [hl, bind, Except.bind] at h
  | ok l =>
    simp only [hl, bind, Except.bind] at h
    split at h
    · cases h
    · rename_i hnone
      exact ⟨l, rfl, hnone, (Except.ok.inj h).symm⟩

/-- What is left of making a directory and those on the way to it: nothing that stood is changed, at the end a directory
    stands where one was wanted, and what is new are directories on the way to it. -/
structure MakesDirectory (s : Store) (p : Path) (r : Attempt Unit) : Prop where
  growsTo : s.GrowsTo r.store
  made : r.result = .ok () → r.store.at? p = some .directory
  fresh : ∀ l e, s.lookup l = none → r.store.lookup l = some e →
    e = .directory ∧ ∃ names, names <+: p.names ∧ r.store.follow ⟨p.root, names⟩ = .ok l

namespace MakesDirectory

theorem unchanged {s : Store} {p : Path} {result : Except Fault Unit}
    (h : result = .ok () → s.at? p = some .directory) : s.MakesDirectory p ⟨s, result⟩ := by
  refine ⟨.refl s, h, ?_⟩
  intro l e hnone hsome
  rw [hnone] at hsome
  cases hsome

theorem ofOk {s s' : Store} {p : Path} (h : s.makeDirectory p = .ok s') : s.MakesDirectory p ⟨s', .ok ()⟩ := by
  obtain ⟨l, hl, hnone, rfl⟩ := makeDirectory_eq_ok h
  have hgrows := GrowsTo.put hl hnone .directory
  have hleads := hgrows.keepsDirectories.follow hl
  have hroot : l ≠ [] := s.ne_root_of_lookup (by simp [hnone])
  refine ⟨hgrows, fun _ => at?_eq_some.mpr ⟨l, hleads, lookup_put_self s _ hroot⟩, ?_⟩
  intro m e hm he
  by_cases hne : m = l
  · rw [hne, lookup_put_self s _ hroot, Option.some.injEq] at he
    exact ⟨he.symm, p.names, List.prefix_refl _, hne ▸ hleads⟩
  · rw [lookup_put_of_ne s _ hne, hm] at he
    cases he

theorem settle (s : Store) (p : Path) (e : Fault) : s.MakesDirectory p (s.settleDirectory p e) := by
  unfold settleDirectory
  split
  · split
    · rename_i hdir
      exact unchanged fun _ => hdir
    · exact unchanged (by simp)
  · exact unchanged (by simp)

/-- A directory is made after those on the way to it. -/
theorem trans {s s' : Store} {root : String} {names : List String} {name : String} {result : Except Fault Unit}
    {r : Attempt Unit} (h : s.MakesDirectory ⟨root, names⟩ ⟨s', result⟩)
    (h' : s'.MakesDirectory ⟨root, names ++ [name]⟩ r) : s.MakesDirectory ⟨root, names ++ [name]⟩ r := by
  refine ⟨h.growsTo.trans h'.growsTo, h'.made, ?_⟩
  intro l e hnone he
  cases hmid : s'.lookup l with
  | none => exact h'.fresh l e hmid he
  | some x =>
    obtain ⟨rfl, before, hbefore, hleads⟩ := h.fresh l x hnone hmid
    have hkept := h'.growsTo.entry l _ hmid
    rw [he, Option.some.injEq] at hkept
    exact ⟨hkept, before, hbefore.trans (List.prefix_append _ _), h'.growsTo.keepsDirectories.follow hleads⟩

end MakesDirectory

theorem makesDirectory_from (s : Store) (root : String) (up : List String) :
    s.MakesDirectory ⟨root, up.reverse⟩ (s.makeDirectoriesFrom root up) := by
  induction up generalizing s with
  | nil =>
    unfold makeDirectoriesFrom
    dsimp only
    split
    · rename_i s' h
      exact .ofOk h
    · exact .settle s _ _
  | cons name up ih =>
    rw [List.reverse_cons]
    unfold makeDirectoriesFrom
    dsimp only
    rw [List.reverse_cons]
    split
    · rename_i s' h
      exact .ofOk h
    · have hup := ih s
      split
      · rename_i s' e h
        rw [h] at hup
        exact hup.trans (.unchanged (by simp))
      · rename_i s' u h
        rw [h] at hup
        split
        · rename_i s'' h''
          exact hup.trans (.ofOk h'')
        · exact hup.trans (.settle s' _ _)
    · exact .settle s _ _

theorem makesDirectory (s : Store) (p : Path) : s.MakesDirectory p (s.makeDirectories p) := by
  have h := s.makesDirectory_from p.root p.names.reverse
  rwa [List.reverse_reverse] at h

/-! ## Temporary files -/

end Store

end CommentQuota
