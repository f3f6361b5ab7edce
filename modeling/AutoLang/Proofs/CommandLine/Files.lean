import AutoLang.CommandLine.World
import AutoLang.Proofs.CommandLine.Names
import Mathlib

/-! Files and the paths to them. A file that is written changes what stands at one location, and as no
path leads through a file, every path that led somewhere leads there still. Two paths with the same
directories in front lead to the same location only if they end in the same name. -/

namespace AutoLang.CommandLine.World

variable {w w' : World} {loc place : Location} {front name : List Char} {path : String}

section Entries

/-- what is printed does not count -/
theorem entry?_congr (h : w'.entries = w.entries) : w'.entry? = w.entry? := by
  funext loc
  unfold entry?
  rw [h]

theorem lookup_filter_of_ne {l : List (Location × Entry)} {loc : Location} (h : loc ≠ place) :
    (l.filter (·.1 != place)).lookup loc = l.lookup loc := by
  induction l with
  | nil => rfl
  | cons p l ih =>
    obtain ⟨k, e⟩ := p
    by_cases hk : k = place
    · subst hk
      rw [List.filter_cons_of_neg (by simp), List.lookup_cons, beq_eq_false_iff_ne.2 h, ih]
    · rw [List.filter_cons_of_pos (by simpa using hk), List.lookup_cons, List.lookup_cons, ih]

theorem entry?_put (w : World) (place : Location) (e : Entry) :
    World.entry? (w.put place e) = Function.update w.entry? place (some e) := by
  funext loc
  unfold put entry?
  by_cases h : loc = place
  · rw [h, List.lookup_cons_self, Function.update_self]
  · rw [List.lookup_cons, beq_eq_false_iff_ne.2 h, Function.update_of_ne h]
    exact lookup_filter_of_ne h

/-- a file was written to where the path leads, and all else is as it was -/
def Wrote (path text : String) (w w' : World) : Prop :=
  ∃ place, w.resolve path = .ok place ∧ w.entry? place ≠ some .directory ∧
    w'.entry? = Function.update w.entry? place (some (.file text.toUTF8))

theorem wrote_of_write {text : String} (h : w.write path text = .ok w') : Wrote path text w w' := by
  unfold write at h
  cases hplace : w.resolve path with
  | error fault =>
    rw [hplace] at h
    cases h
  | ok place =>
    rw [hplace] at h
    dsimp only [bind, Except.bind] at h
    split at h
    · cases h
    · rename_i hfile
      obtain rfl := Except.ok.inj h
      exact ⟨place, hplace, hfile, entry?_put w place _⟩

theorem exists_write (text : String) (hplace : w.resolve path = .ok place)
    (hfile : w.entry? place ≠ some .directory) : ∃ w', w.write path text = .ok w' := by
  refine ⟨w.put place (.file text.toUTF8), ?_⟩
  unfold write
  rw [hplace]
  dsimp only [bind, Except.bind]
  split
  · rename_i hdir
    exact absurd hdir hfile
  · rfl

/-- a file that is written is all that changes -/
theorem Wrote.entry_cases {text : String} (h : Wrote path text w w') (loc : Location) :
    w.resolve path = .ok loc ∧ w'.entry? loc = some (.file text.toUTF8) ∨ w'.entry? loc = w.entry? loc := by
  obtain ⟨place, hplace, -, hw'⟩ := h
  by_cases heq : loc = place
  · exact .inl ⟨heq ▸ hplace, by rw [hw', heq, Function.update_self]⟩
  · exact .inr (by rw [hw', Function.update_of_ne heq])

/-- the directories are the same as before -/
theorem Wrote.directory_iff {text : String} (h : Wrote path text w w') :
    w'.entry? loc = some .directory ↔ w.entry? loc = some .directory := by
  obtain ⟨place, -, hfile, hw'⟩ := h
  by_cases heq : loc = place
  · rw [hw', heq, Function.update_self]
    exact iff_of_false nofun hfile
  · rw [hw', Function.update_of_ne heq]

/-- a text that is in a file is read from it -/
theorem read_eq_ok {text : String} (hloc : w.resolve path = .ok loc)
    (hfile : w.entry? loc = some (.file text.toUTF8)) : w.read path = .ok text := by
  have htext : String.fromUTF8? text.toUTF8 = some text := dif_pos text.isValidUTF8
  unfold read
  rw [hloc]
  dsimp only [bind, Except.bind]
  rw [hfile]
  dsimp only
  rw [htext]

end Entries

section Walks

variable {l l' : Location} {segs segs' : List String}

theorem walk_append (w : World) (l : Location) (segs segs' : List String) :
    w.walk l (segs ++ segs') = (w.walk l segs).bind fun l' => w.walk l' segs' := by
  induction segs generalizing l with
  | nil => rfl
  | cons s segs ih =>
    rw [List.cons_append, walk, walk]
    split
    · rfl
    · rfl
    · split
      · exact ih _
      · split
        · exact ih _
        · split
          · rfl
          · exact ih _

theorem walk_append_ok : w.walk l (segs ++ segs') = .ok l' ↔
    ∃ dir, w.walk l segs = .ok dir ∧ w.walk dir segs' = .ok l' := by
  rw [walk_append]
  cases w.walk l segs with
  | error u => exact iff_of_false nofun nofun
  | ok dir => exact ⟨fun h => ⟨dir, rfl, h⟩, fun ⟨_, hdir, h⟩ => by cases hdir; exact h⟩

/-- no path leads through a file, neither before it is written nor afterwards -/
theorem walk_update {bytes : ByteArray} (hplace : w.entry? place ≠ some .directory)
    (hw' : w'.entry? = Function.update w.entry? place (some (.file bytes))) :
    w'.walk l segs = .ok l' ↔ w.walk l segs = .ok l' := by
  induction segs generalizing l with
  | nil => exact Iff.rfl
  | cons s segs ih =>
    rw [walk, walk, hw']
    by_cases hl : l = place
    · subst hl
      rw [Function.update_self]
      refine iff_of_false nofun ?_
      split
      · nofun
      · nofun
      · rename_i hdir
        exact absurd hdir hplace
    · rw [Function.update_of_ne hl]
      split
      · exact Iff.rfl
      · exact Iff.rfl
      · split
        · exact ih
        · split
          · exact ih
          · split
            · exact Iff.rfl
            · exact ih

/-- one step -/
theorem walk_singleton {s : String} (h : w.walk l [s] = .ok loc) : w.entry? l = some .directory ∧
    loc = if s = "." then l else if s = ".." then l.dropLast else l ++ [s] := by
  rw [walk] at h
  split at h
  · cases h
  · cases h
  · rename_i hdir
    refine ⟨hdir, ?_⟩
    simp only [beq_iff_eq] at h
    by_cases hdot : s = "."
    · rw [if_pos hdot] at h ⊢
      exact (Except.ok.inj h).symm
    · rw [if_neg hdot] at h ⊢
      by_cases hdots : s = ".."
      · rw [if_pos hdots] at h ⊢
        exact (Except.ok.inj h).symm
      · rw [if_neg hdots] at h ⊢
        split at h
        · cases h
        · exact (Except.ok.inj h).symm

end Walks

section Resolution

/-- where a path begins -/
def origin (front : List Char) : Location := if front.head? = some '/' then [] else home

theorem resolve_ok (h : w.resolve path = .ok loc) :
    w.walk (origin path.toList) (if path.toList.getLast? = some '/' then
      Path.segments path.toList ++ ["."] else Path.segments path.toList) = .ok loc := by
  unfold resolve at h
  split at h
  · cases h
  · split at h
    · cases h
    · exact h

/-- a path leads where it led before a file was written -/
theorem Wrote.resolve {path' text : String} (h : Wrote path text w w') :
    w'.resolve path' = .ok loc ↔ w.resolve path' = .ok loc := by
  obtain ⟨place, -, hplace, hw'⟩ := h
  unfold World.resolve
  split
  · exact Iff.rfl
  · split
    · exact Iff.rfl
    · exact walk_update hplace hw'

/-- the last segment of a path -/
theorem segments_append (hf : Path.IsFront front) (hne : name ≠ []) (hplain : '/' ∉ name) :
    Path.segments (front ++ name) = Path.segments front ++ [String.ofList name] := by
  have hname : name.splitOn '/' = [name] :=
    List.splitOnP_eq_singleton fun c hc => beq_eq_false_iff_ne.2 fun heq => hplain (heq ▸ hc)
  have hsplit : ((front ++ name).splitOn '/').filter (!·.isEmpty) =
      (front.splitOn '/').filter (!·.isEmpty) ++ [name] := by
    obtain hnil | ⟨f, c, rfl⟩ := front.eq_nil_or_concat'
    · rw [hnil, List.nil_append, hname]
      simp [List.splitOn, hne]
    · obtain rfl : c = '/' := hf c (by simp)
      rw [List.append_assoc, List.singleton_append]
      unfold List.splitOn at *
      rw [List.splitOnP_append_cons _ _ (by rfl), List.splitOnP_append_cons _ _ (by rfl), hname]
      simp [hne]
  rw [Path.segments, hsplit, List.map_append]
  rfl

/-- a path leads from the directory in front of its last segment -/
theorem resolve_append (hpath : path.toList = front ++ name) (hf : Path.IsFront front) (hne : name ≠ [])
    (hplain : '/' ∉ name) (h : w.resolve path = .ok loc) :
    ∃ dir, w.walk (origin front) (Path.segments front) = .ok dir ∧ w.entry? dir = some .directory ∧
      loc = if name = ['.'] then dir else if name = ['.', '.'] then dir.dropLast
        else dir ++ [String.ofList name] := by
  have hwalk := resolve_ok h
  have hlast : path.toList.getLast? ≠ some '/' := by
    rw [hpath, List.getLast?_append_of_ne_nil _ hne]
    exact fun hslash => hplain (List.mem_of_getLast? hslash)
  have horigin : origin path.toList = origin front := by
    unfold origin
    rw [hpath]
    cases front with
    | nil =>
      have hhead : name.head? ≠ some '/' := fun hslash => hplain (List.mem_of_head? hslash)
      rw [List.nil_append, if_neg hhead]
      rfl
    | cons c front => rfl
  rw [if_neg hlast, horigin, hpath, segments_append hf hne hplain, walk_append_ok] at hwalk
  obtain ⟨dir, hdir, hstep⟩ := hwalk
  obtain ⟨hdirectory, hloc⟩ := walk_singleton hstep
  refine ⟨dir, hdir, hdirectory, hloc.trans ?_⟩
  have hdot : String.ofList name = "." ↔ name = ['.'] := by
    rw [← String.toList_inj, String.toList_ofList]
    rfl
  have hdots : String.ofList name = ".." ↔ name = ['.', '.'] := by
    rw [← String.toList_inj, String.toList_ofList]
    rfl
  simp only [hdot, hdots]

theorem resolve_name (hpath : path.toList = front ++ name) (hf : Path.IsFront front)
    (hname : Path.IsName name) (h : w.resolve path = .ok loc) :
    ∃ dir, w.walk (origin front) (Path.segments front) = .ok dir ∧ loc = dir ++ [String.ofList name] := by
  obtain ⟨dir, hdir, -, hloc⟩ := resolve_append hpath hf hname.ne_nil hname.plain h
  rw [if_neg hname.ne_dot, if_neg hname.ne_dots] at hloc
  exact ⟨dir, hdir, hloc⟩

theorem resolve_suffix {stem : List Char} {ext : String}
    (hpath : path.toList = front ++ (stem ++ '.' :: ext.toList)) (hf : Path.IsFront front)
    (hname : Path.IsName (stem ++ '.' :: ext.toList)) (h : w.resolve path = .ok loc) :
    ∃ dir, w.walk (origin front) (Path.segments front) = .ok dir ∧
      loc = dir ++ [String.ofList stem ++ ("." ++ ext)] := by
  obtain ⟨dir, hdir, rfl⟩ := resolve_name hpath hf hname h
  refine ⟨dir, hdir, ?_⟩
  rw [List.append_cancel_left_eq, List.singleton_inj, ← String.toList_inj]
  simp

/-- a slash at the end asks for a directory -/
theorem directory_of_slash (h : w.resolve path = .ok loc) (hslash : path.toList.getLast? = some '/') :
    w.entry? loc = some .directory := by
  have hwalk := resolve_ok h
  rw [if_pos hslash, walk_append_ok] at hwalk
  obtain ⟨dir, -, hstep⟩ := hwalk
  obtain ⟨hdirectory, rfl⟩ := walk_singleton hstep
  exact hdirectory

/-- so does whatever can be left out there -/
theorem directory_of_trailing (h : w.resolve path = .ok loc)
    (htrim : Path.trimmed path.toList ≠ path.toList) : w.entry? loc = some .directory := by
  obtain hslash | ⟨front, hfront, hpath⟩ := (Path.trimmed_cases path.toList).resolve_left htrim
  · exact directory_of_slash h hslash
  · have hf : Path.IsFront front := fun c hc => Option.some.inj ((Option.mem_def.1 hc).symm.trans hfront)
    obtain ⟨dir, -, hdirectory, rfl⟩ := resolve_append hpath hf (by decide) (by decide) h
    exact hdirectory

/-- what leads to a file and has a name ends in it -/
theorem exists_front {bytes : ByteArray} (h : w.resolve path = .ok loc)
    (hfile : w.entry? loc = some (.file bytes)) (hname : Path.fileName? path.toList = some name) :
    ∃ front, Path.IsFront front ∧ Path.IsName name ∧ path.toList = front ++ name := by
  refine Path.exists_front (not_not.1 fun htrim => ?_) hname
  rw [directory_of_trailing h htrim] at hfile
  cases hfile

end Resolution

section Directories

variable {l l' : Location} {segs : List String}

/-- all that is above a location is a directory -/
def Rooted (w : World) (l : Location) : Prop := ∀ n < l.length, w.entry? (l.take n) = some .directory

theorem Rooted.dropLast (h : w.Rooted l) : w.Rooted l.dropLast := by
  intro n hn
  rw [List.length_dropLast] at hn
  rw [List.dropLast_eq_take, List.take_take, Nat.min_eq_left hn.le]
  exact h n (by omega)

theorem Rooted.step (h : w.Rooted l) (hl : w.entry? l = some .directory) (s : String) :
    w.Rooted (l ++ [s]) := by
  intro n hn
  rw [List.length_append, List.length_singleton] at hn
  rcases Nat.lt_succ_iff_lt_or_eq.1 hn with hlt | rfl
  · rw [List.take_append_of_le_length hlt.le]
    exact h n hlt
  · rw [List.take_left]
    exact hl

/-- a path leads down through directories only -/
theorem Rooted.walk (hl : w.Rooted l) (h : w.walk l segs = .ok l') : w.Rooted l' := by
  induction segs generalizing l with
  | nil => exact Except.ok.inj h ▸ hl
  | cons s segs ih =>
    obtain ⟨next, hstep, hrest⟩ := walk_append_ok.1 (show w.walk l ([s] ++ segs) = .ok l' from h)
    obtain ⟨hdirectory, rfl⟩ := walk_singleton hstep
    refine ih ?_ hrest
    split
    · exact hl
    · split
      · exact hl.dropLast
      · exact hl.step hdirectory s

/-- above a directory is a directory, and the root is above itself -/
theorem Rooted.above (h : w.Rooted l) (hl : w.entry? l = some .directory) :
    w.entry? l.dropLast = some .directory := by
  rcases Nat.eq_zero_or_pos l.length with hroot | hpos
  · rwa [List.length_eq_zero_iff.1 hroot] at hl ⊢
  · rw [List.dropLast_eq_take]
    exact h _ (by omega)

theorem rooted_origin (hroot : w.entry? [] = some .directory) (front : List Char) :
    w.Rooted (origin front) := by
  intro n hn
  unfold origin at hn ⊢
  split at hn
  · cases hn
  · obtain rfl : n = 0 := Nat.lt_one_iff.1 hn
    rw [List.take_zero]
    exact hroot

theorem directory_of_dots (hroot : w.entry? [] = some .directory) (hpath : path.toList = front ++ ['.', '.'])
    (hf : Path.IsFront front) (h : w.resolve path = .ok loc) : w.entry? loc = some .directory := by
  obtain ⟨dir, hwalk, hdirectory, rfl⟩ := resolve_append hpath hf (by decide) (by decide) h
  exact ((rooted_origin hroot front).walk hwalk).above hdirectory

/-- a path that names nothing leads to a directory, if anywhere -/
theorem directory_of_nameless (hroot : w.entry? [] = some .directory)
    (hname : Path.fileName? path.toList = none) (h : w.resolve path = .ok loc) :
    w.entry? loc = some .directory := by
  by_cases htrim : Path.trimmed path.toList = path.toList
  · obtain ⟨front, hf, -, hpath⟩ := Path.exists_lastSegment path.toList
    obtain hlast | hlast | hlast := Path.lastSegment_of_nameless htrim hname
    · rw [hlast, List.append_nil] at hpath
      refine directory_of_slash h ?_
      rw [hpath]
      cases hend : front.getLast? with
      | none =>
        rw [List.getLast?_eq_none_iff.1 hend, String.toList_eq_nil_iff] at hpath
        subst hpath
        cases h
      | some c => rw [hf c hend]
    · rw [hlast] at hpath
      obtain ⟨dir, -, hdirectory, rfl⟩ := resolve_append hpath hf (by decide) (by decide) h
      exact hdirectory
    · exact directory_of_dots hroot (hlast ▸ hpath) hf h
  · exact directory_of_trailing h htrim

end Directories

end AutoLang.CommandLine.World
