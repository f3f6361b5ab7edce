import AutoLang.CommandLine.Path
import Mathlib

/-! Names and their extensions. Replacing the extension of a path changes the name at its end and nothing
before it. Two replacements in a row drop up to two extensions, and a name can be left that is no longer
one: what remains of `..c` is the directory above. -/

namespace AutoLang.CommandLine.Path

/-- what a path can end with if it names something in a directory -/
structure IsName (name : List Char) : Prop where
  ne_nil : name ≠ []
  plain : '/' ∉ name
  ne_dot : name ≠ ['.']
  ne_dots : name ≠ ['.', '.']

instance (name : List Char) : Decidable (IsName name) :=
  decidable_of_iff (name ≠ [] ∧ '/' ∉ name ∧ name ≠ ['.'] ∧ name ≠ ['.', '.'])
    ⟨fun h => ⟨h.1, h.2.1, h.2.2.1, h.2.2.2⟩, fun h => ⟨h.1, h.2, h.3, h.4⟩⟩

/-- what stands before a name: nothing, or directories with a slash behind them -/
def IsFront (front : List Char) : Prop := ∀ c ∈ front.getLast?, c = '/'

/-- a name without its extension -/
def stem (name : List Char) : List Char := (splitName name).1

/-- a name without its last two extensions -/
def bareName (name : List Char) : List Char := stem (stem name)

def withSuffix (name ext : List Char) : List Char := if ext.isEmpty then name else name ++ '.' :: ext

/-- a name with another extension, or without one -/
def renamed (name ext : List Char) : List Char :=
  match splitName name with
  | (stem, none) => withSuffix stem ext
  | (stem, some _) => if stem = ['.'] then ['.', '.'] else withSuffix stem ext

section Split

variable {name front back ext : List Char}

/-- what stands behind the last of a character -/
theorem takeWhile_reverse {c : Char} (hfront : ∀ d ∈ front.getLast?, d = c) (hback : c ∉ back) :
    ((front ++ back).reverse.takeWhile (· != c)).reverse = back := by
  have hall : ∀ d ∈ back.reverse, (d != c) = true :=
    fun d hd => bne_iff_ne.2 fun heq => hback (heq ▸ List.mem_reverse.1 hd)
  have hstop : front.reverse.takeWhile (· != c) = [] := by
    rw [← List.head?_reverse] at hfront
    cases hrev : front.reverse with
    | nil => rfl
    | cons d ds =>
      rw [hrev] at hfront
      simp [hfront d rfl]
  rw [List.reverse_append, List.takeWhile_append_of_pos hall, hstop, List.append_nil,
    List.reverse_reverse]

theorem splitName_append {s : List Char} (hs : s ≠ []) (hext : '.' ∉ ext) :
    splitName (s ++ '.' :: ext) = (s, some ext) := by
  have hending : ((s ++ ['.'] ++ ext).reverse.takeWhile (· != '.')).reverse = ext :=
    takeWhile_reverse (by simp) hext
  rw [List.append_assoc, List.singleton_append] at hending
  have hlength : (s ++ '.' :: ext).length = s.length + (ext.length + 1) := List.length_append
  have hstem : (s ++ '.' :: ext).length - ext.length - 1 = s.length := by omega
  have hshorter : ext.length ≠ (s ++ '.' :: ext).length := by omega
  unfold splitName
  simp only [hending, hstem, List.take_left, decide_eq_false hshorter]
  simp [hs]

theorem splitName_plain (h : '.' ∉ name.tail) : splitName name = (name, none) := by
  cases name with
  | nil => rfl
  | cons c cs =>
    have h : '.' ∉ cs := h
    unfold splitName
    by_cases hc : c = '.'
    · -- a point at the beginning
      have hending : (([c] ++ cs).reverse.takeWhile (· != '.')).reverse = cs :=
        takeWhile_reverse (by simpa using hc) h
      have hstem : (c :: cs).length - cs.length - 1 = 0 := by
        rw [List.length_cons]
        omega
      rw [List.singleton_append] at hending
      simp only [hending, hstem]
      simp
    · have hpoint : '.' ∉ c :: cs :=
        fun hmem => (List.mem_cons.1 hmem).elim (fun heq => hc heq.symm) h
      have hending : (([] ++ c :: cs).reverse.takeWhile (· != '.')).reverse = c :: cs :=
        takeWhile_reverse nofun hpoint
      rw [List.nil_append] at hending
      simp only [hending]
      simp

/-- a name has no extension, or ends in one -/
theorem splitName_cases (name : List Char) :
    '.' ∉ name.tail ∧ splitName name = (name, none) ∨
      ∃ s ext, s ≠ [] ∧ '.' ∉ ext ∧ name = s ++ '.' :: ext ∧ splitName name = (s, some ext) := by
  by_cases h : '.' ∈ name.tail
  · right
    cases name with
    | nil => cases h
    | cons c cs =>
      obtain ⟨after, before, hsplit, hafter⟩ := List.eq_append_cons_of_mem (List.mem_reverse.2 h)
      have hcs : cs = before.reverse ++ '.' :: after.reverse := by
        rw [← List.reverse_reverse cs]
        simp [show cs.reverse = after ++ '.' :: before from hsplit]
      have hext : '.' ∉ after.reverse := fun hmem => hafter (List.mem_reverse.1 hmem)
      have hs : c :: before.reverse ≠ [] := List.cons_ne_nil _ _
      subst hcs
      exact ⟨_, _, hs, hext, rfl, splitName_append hs hext⟩
  · exact .inl ⟨h, splitName_plain h⟩

theorem stem_append {s : List Char} (hs : s ≠ []) (hext : '.' ∉ ext) : stem (s ++ '.' :: ext) = s := by
  rw [stem, splitName_append hs hext]

theorem stem_ne_nil (h : name ≠ []) : stem name ≠ [] := by
  unfold stem
  obtain ⟨-, hname⟩ | ⟨s, ext, hs, -, -, hname⟩ := splitName_cases name
  · rwa [hname]
  · rwa [hname]

theorem isPrefix_stem (name : List Char) : stem name <+: name := by
  unfold stem
  obtain ⟨-, hname⟩ | ⟨s, ext, -, -, rfl, hname⟩ := splitName_cases name
  · rw [hname]
  · rw [hname]
    exact List.prefix_append _ _

theorem stem_eq_self {name : List Char} : stem name = name ↔ '.' ∉ name.tail := by
  unfold stem
  obtain ⟨hplain, hname⟩ | ⟨s, ext, hs, -, rfl, hname⟩ := splitName_cases name
  · exact iff_of_true (by rw [hname]) hplain
  · refine iff_of_false (fun h => ?_) fun h => h ?_
    · rw [hname] at h
      simpa using congrArg List.length h
    · obtain ⟨c, cs, rfl⟩ := List.exists_cons_of_ne_nil hs
      simp

/-- only a name without a point, apart from one at its beginning, is left as it is -/
theorem bareName_eq_self {name : List Char} : bareName name = name ↔ '.' ∉ name.tail := by
  rw [← stem_eq_self]
  constructor
  · intro h
    have hle := (isPrefix_stem (stem name)).length_le
    rw [show stem (stem name) = name from h] at hle
    exact (isPrefix_stem name).eq_of_length_le hle
  · intro h
    rw [bareName, h, h]

end Split

section Paths

variable {front name : List Char} {path ext : String}

theorem trimmed_append (hne : name ≠ []) (hplain : '/' ∉ name) (hdot : name ≠ ['.']) :
    trimmed (front ++ name) = front ++ name := by
  have hrest : trimBackward (front ++ name).reverse = (front ++ name).reverse := by
    obtain ⟨c, cs, hrev⟩ : ∃ c cs, name.reverse = c :: cs :=
      List.exists_cons_of_ne_nil (by simpa using hne)
    have hslash : ∀ d ∈ c :: cs, d ≠ '/' := fun d hd heq =>
      hplain (heq ▸ List.mem_reverse.1 (hrev ▸ hd))
    rw [List.reverse_append, hrev]
    rw [trimBackward]
    · rintro r h
      exact hslash c List.mem_cons_self (List.cons.inj h).1
    · rintro r h
      obtain ⟨hc, hcs⟩ := List.cons.inj h
      cases cs with
      | nil => exact hdot (by simpa [hc] using congrArg List.reverse hrev)
      | cons d ds => exact hslash d (List.mem_cons_of_mem _ List.mem_cons_self) (List.cons.inj hcs).1
  rw [trimmed, hrest, List.reverse_reverse]

theorem fileName?_append (hf : IsFront front) (h : IsName name) : fileName? (front ++ name) = some name := by
  have hsegment : lastSegment (front ++ name) = name := takeWhile_reverse hf h.plain
  unfold fileName?
  rw [trimmed_append h.ne_nil h.plain h.ne_dot, hsegment]
  simp [h.ne_nil, h.ne_dot, h.ne_dots]

/-- the directory above has no name -/
theorem fileName?_dots (hf : IsFront front) : fileName? (front ++ ['.', '.']) = none := by
  have hsegment : lastSegment (front ++ ['.', '.']) = ['.', '.'] := takeWhile_reverse hf (by decide)
  unfold fileName?
  rw [trimmed_append (by decide) (by decide) (by decide), hsegment]
  rfl

/-- what can be left out at the end of a path is a slash, or a point behind one -/
theorem trimmed_cases (path : List Char) : trimmed path = path ∨ path.getLast? = some '/' ∨
    ∃ front, front.getLast? = some '/' ∧ path = front ++ ['.'] := by
  rw [← List.head?_reverse, trimmed]
  cases hrev : path.reverse using trimBackward.fun_cases with
  | case1 r => exact .inr (.inl rfl)
  | case2 r =>
    refine .inr (.inr ⟨('/' :: r).reverse, by simp, ?_⟩)
    rw [← List.reverse_reverse path, hrev, List.reverse_cons]
  | case3 _ hslash hdot =>
    rw [trimBackward]
    · exact .inl (by rw [← hrev, List.reverse_reverse])
    · exact hslash
    · exact hdot

/-- what is left out at the end is left out as well if a part of it is not there -/
theorem trimBackward_drop {r : List Char} {k : ℕ} (h : k + (trimBackward r).length ≤ r.length) :
    trimBackward (r.drop k) = trimBackward r := by
  induction r using trimBackward.induct generalizing k with
  | case1 r ih =>
    cases k with
    | zero => rfl
    | succ k =>
      rw [trimBackward, List.length_cons] at h
      rw [trimBackward, List.drop_succ_cons, ih (by omega)]
  | case2 r ih =>
    cases k with
    | zero => rfl
    | succ k =>
      rw [trimBackward, List.length_cons] at h
      rw [trimBackward, List.drop_succ_cons, ih (by omega)]
  | case3 r hslash hdot =>
    have hstays : trimBackward r = r := by
      rw [trimBackward]
      · exact hslash
      · exact hdot
    rw [hstays] at h
    obtain rfl : k = 0 := by omega
    rfl

theorem trimBackward_suffix (r : List Char) : trimBackward r <:+ r := by
  induction r using trimBackward.induct with
  | case1 r ih =>
    rw [trimBackward]
    exact ih.trans (List.suffix_cons _ _)
  | case2 r ih =>
    rw [trimBackward]
    exact ih.trans (List.suffix_cons _ _)
  | case3 r hslash hdot =>
    rw [trimBackward]
    · exact hslash
    · exact hdot

theorem isPrefix_trimmed (path : List Char) : trimmed path <+: path := by
  rw [trimmed, ← List.reverse_suffix, List.reverse_reverse]
  exact trimBackward_suffix _

theorem trimmed_take {path : List Char} {k : ℕ} (h : (trimmed path).length ≤ k) :
    trimmed (path.take k) = trimmed path := by
  have hle : (trimBackward path.reverse).length ≤ k := by rwa [trimmed, List.length_reverse] at h
  have hall := (trimBackward_suffix path.reverse).length_le
  rw [List.length_reverse] at hall
  rw [trimmed, List.reverse_take, trimBackward_drop (by rw [List.length_reverse]; omega), trimmed]

theorem trimmed_trimmed (path : List Char) : trimmed (trimmed path) = trimmed path := by
  have hfront := List.prefix_iff_eq_take.1 (isPrefix_trimmed path)
  conv_lhs => rw [hfront]
  exact trimmed_take le_rfl

theorem fileName?_trimmed (path : List Char) : fileName? (trimmed path) = fileName? path := by
  unfold fileName?
  rw [trimmed_trimmed]

/-- the last segment of a path, and what is before it -/
theorem exists_lastSegment (path : List Char) :
    ∃ front, IsFront front ∧ '/' ∉ lastSegment path ∧ path = front ++ lastSegment path := by
  refine ⟨(path.reverse.dropWhile (· != '/')).reverse, fun c hc => ?_, fun hmem => ?_, ?_⟩
  · have hstop := List.head?_dropWhile_not (· != '/') path.reverse
    rw [List.getLast?_reverse] at hc
    rw [Option.mem_def.1 hc] at hstop
    simpa using hstop
  · have := List.mem_takeWhile_imp (List.mem_reverse.1 hmem)
    simp at this
  · rw [lastSegment, ← List.reverse_append, List.takeWhile_append_dropWhile, List.reverse_reverse]

/-- a path with nothing to leave out ends in its name -/
theorem exists_front {path : List Char} (htrim : trimmed path = path) (h : fileName? path = some name) :
    ∃ front, IsFront front ∧ IsName name ∧ path = front ++ name := by
  unfold fileName? at h
  rw [htrim] at h
  dsimp only at h
  split at h
  · cases h
  · rename_i hsome
    obtain rfl := Option.some.inj h
    simp only [Bool.or_eq_true, beq_iff_eq, not_or] at hsome
    obtain ⟨⟨hne, hdot⟩, hdots⟩ := hsome
    obtain ⟨front, hf, hplain, hpath⟩ := exists_lastSegment path
    exact ⟨front, hf, ⟨hne, hplain, hdot, hdots⟩, hpath⟩

/-- a path without a name has no segment at its end, or one that leads elsewhere -/
theorem lastSegment_of_nameless {path : List Char} (htrim : trimmed path = path)
    (h : fileName? path = none) :
    lastSegment path = [] ∨ lastSegment path = ['.'] ∨ lastSegment path = ['.', '.'] := by
  unfold fileName? at h
  rw [htrim] at h
  dsimp only at h
  split at h
  · rename_i hnone
    simpa only [Bool.or_eq_true, beq_iff_eq, or_assoc] using hnone
  · cases h

theorem dropExtension_none (hf : IsFront front) (h : IsName name) (hname : (splitName name).2 = none) :
    dropExtension (front ++ name) = front ++ name := by
  unfold dropExtension
  rw [fileName?_append hf h, Option.bind_some, hname]

/-- the point in front of an extension stays -/
theorem dropExtension_some {s x : List Char} (hf : IsFront front) (h : IsName (s ++ '.' :: x))
    (hname : (splitName (s ++ '.' :: x)).2 = some x) :
    dropExtension (front ++ (s ++ '.' :: x)) = front ++ (s ++ ['.']) := by
  unfold dropExtension
  rw [fileName?_append hf h, Option.bind_some, hname]
  have hsplit : front ++ (s ++ '.' :: x) = front ++ (s ++ ['.']) ++ x := by simp
  rw [hsplit, List.length_append]
  dsimp only
  rw [Nat.add_sub_cancel, List.take_left]

theorem dropExtension_dots (hf : IsFront front) :
    dropExtension (front ++ ['.', '.']) = front ++ ['.', '.'] := by
  unfold dropExtension
  rw [fileName?_dots hf, Option.bind_none]

/-- what is left without an extension is named again -/
theorem withExtension_of_trimmed {dropped : List Char}
    (hdrop : trimmed (dropExtension path.toList) = front ++ dropped) (hf : IsFront front)
    (h : IsName dropped) :
    (withExtension path ext).toList = front ++ withSuffix (stem dropped) ext.toList := by
  have hname : fileName? (dropExtension path.toList) = some dropped := by
    rw [← fileName?_trimmed, hdrop, fileName?_append hf h]
  have hfront : (front ++ dropped).take ((front ++ dropped).length - dropped.length) = front := by
    rw [List.length_append, Nat.add_sub_cancel, List.take_left]
  have hempty : ext.isEmpty = ext.toList.isEmpty := by
    rw [Bool.eq_iff_iff, String.isEmpty_iff, List.isEmpty_iff, String.toList_eq_nil_iff]
  unfold withExtension
  simp only [hname, hdrop, hfront, String.toList_ofList, hempty, withSuffix]
  split
  · rfl
  · exact List.append_assoc _ _ _

theorem withExtension_of_drop {dropped : List Char} (hdrop : dropExtension path.toList = front ++ dropped)
    (hf : IsFront front) (h : IsName dropped) :
    (withExtension path ext).toList = front ++ withSuffix (stem dropped) ext.toList :=
  withExtension_of_trimmed (by rw [hdrop, trimmed_append h.ne_nil h.plain h.ne_dot]) hf h

/-- unless it is the directory above -/
theorem withExtension_of_dots (hdrop : dropExtension path.toList = front ++ ['.', '.'])
    (hf : IsFront front) : (withExtension path ext).toList = front ++ ['.', '.'] := by
  unfold withExtension
  simp only [hdrop, fileName?_dots hf, String.toList_ofList]

theorem withExtension_dots (hpath : path.toList = front ++ ['.', '.']) (hf : IsFront front) :
    (withExtension path ext).toList = front ++ ['.', '.'] :=
  withExtension_of_dots (by rw [hpath, dropExtension_dots hf]) hf

/-- the name at the end of a path gets the extension, and what is before it stays -/
theorem withExtension_name (hpath : path.toList = front ++ name) (hf : IsFront front) (h : IsName name) :
    (withExtension path ext).toList = front ++ renamed name ext.toList := by
  unfold renamed
  obtain ⟨-, hname⟩ | ⟨s, x, hs, hx, rfl, hname⟩ := splitName_cases name
  · have hdrop : dropExtension path.toList = front ++ name := by
      rw [hpath, dropExtension_none hf h (by rw [hname])]
    rw [withExtension_of_drop hdrop hf h, hname, stem, hname]
  · have hdrop : dropExtension path.toList = front ++ (s ++ ['.']) := by
      rw [hpath, dropExtension_some hf h (by rw [hname])]
    rw [hname]
    dsimp only
    by_cases hdot : s = ['.']
    · rw [if_pos hdot]
      exact withExtension_of_dots (hdrop.trans (by rw [hdot]; rfl)) hf
    · have hplain : '/' ∉ s := fun hmem => h.plain (List.mem_append_left _ hmem)
      have hdropped : IsName (s ++ ['.']) := by
        refine ⟨by simp, by simp [hplain], fun heq => hs ?_, fun heq => hdot ?_⟩
        · exact List.append_cancel_right (heq.trans (List.nil_append _).symm)
        · have heq : s ++ ['.'] = ['.'] ++ ['.'] := heq
          exact List.append_cancel_right heq
      rw [withExtension_of_drop hdrop hf hdropped, if_neg hdot, stem_append hs (by simp)]

/-- what a name is without its extension: the name of something, or the directory above -/
theorem renamed_nil (h : IsName name) :
    renamed name [] = ['.', '.'] ∨ renamed name [] = stem name ∧ IsName (stem name) := by
  unfold renamed stem
  obtain ⟨-, hname⟩ | ⟨s, x, hs, hx, rfl, hname⟩ := splitName_cases name
  · rw [hname]
    exact .inr ⟨rfl, h⟩
  · rw [hname]
    dsimp only
    split
    · exact .inl rfl
    · rename_i hdot
      by_cases hdots : s = ['.', '.']
      · exact .inl hdots
      · exact .inr ⟨rfl, hs, fun hmem => h.plain (List.mem_append_left _ hmem), hdot, hdots⟩

/-- a name keeps its stem, or becomes the directory above with any extension -/
theorem renamed_cases (name : List Char) :
    (∀ x, renamed name x = ['.', '.']) ∨ ∀ x, renamed name x = withSuffix (stem name) x := by
  unfold renamed stem
  obtain ⟨-, hname⟩ | ⟨s, x, -, -, rfl, hname⟩ := splitName_cases name
  · rw [hname]
    exact .inr fun _ => rfl
  · rw [hname]
    dsimp only
    split
    · exact .inl fun _ => rfl
    · exact .inr fun _ => rfl

theorem renamed_suffix (name : List Char) {x : List Char} (hx : x ≠ []) :
    renamed name x = ['.', '.'] ∨ renamed name x = stem name ++ '.' :: x := by
  have hsuffix : withSuffix (stem name) x = stem name ++ '.' :: x := by
    rw [withSuffix, if_neg (by simpa using hx)]
  exact (renamed_cases name).imp (fun h => h x) fun h => (h x).trans hsuffix

/-- a path without its extension, and then with another one -/
def outputPath (path ext : String) : String := withExtension (withExtension path "") ext

/-- it is in the same directory, or the directory above that -/
theorem toList_outputPath (hpath : path.toList = front ++ name) (hf : IsFront front) (h : IsName name)
    (hext : ext ≠ "") :
    (outputPath path ext).toList = front ++ ['.', '.'] ∨
      (outputPath path ext).toList = front ++ (bareName name ++ '.' :: ext.toList) ∧
        IsName (stem name) ∧ (withExtension path "").toList = front ++ stem name := by
  have hbase : (withExtension path "").toList = front ++ renamed name [] := withExtension_name hpath hf h
  obtain hdots | ⟨hstem, hname⟩ := renamed_nil h
  · rw [hdots] at hbase
    exact .inl (withExtension_dots hbase hf)
  · rw [hstem] at hbase
    have hout : (outputPath path ext).toList = front ++ renamed (stem name) ext.toList :=
      withExtension_name hbase hf hname
    obtain hdots | hsuffix := renamed_suffix (stem name) (x := ext.toList) (by simpa using hext)
    · exact .inl (hout.trans (by rw [hdots]))
    · exact .inr ⟨hout.trans (by rw [hsuffix, bareName]), hname, hbase⟩

/-- what gets an extension is the name of something -/
theorem isName_suffix {s x : List Char} (hs : s ≠ []) (hplain : '/' ∉ s) (hx : x ≠ []) (hslash : '/' ∉ x) :
    IsName (s ++ '.' :: x) := by
  have hs := List.length_pos_of_ne_nil hs
  have hx := List.length_pos_of_ne_nil hx
  have hlength : 2 < (s ++ '.' :: x).length := by
    rw [List.length_append, List.length_cons]
    omega
  refine ⟨?_, by simp [hplain, hslash], ?_, ?_⟩
  · exact fun h => absurd hlength (by rw [h]; decide)
  · exact fun h => absurd hlength (by rw [h]; decide)
  · exact fun h => absurd hlength (by rw [h]; decide)

theorem isName_bareName {x : List Char} (h : IsName name) (hx : x ≠ []) (hslash : '/' ∉ x) :
    IsName (bareName name ++ '.' :: x) := by
  have hbare : bareName name <+: name := (isPrefix_stem _).trans (isPrefix_stem _)
  exact isName_suffix (stem_ne_nil (stem_ne_nil h.ne_nil)) (fun hmem => h.plain (hbare.subset hmem)) hx
    hslash

section Trailing

variable {path behind : List Char}

/-- an extension that is taken off a path with something behind its name is not taken off the name, but
only what remains of it is: the stem stays -/
theorem dropExtension_behind (hf : IsFront front) (h : IsName name) (hpath : path = front ++ name ++ behind)
    (htrim : trimmed path = front ++ name) (hbehind : behind ≠ []) :
    ∃ dropped, IsName dropped ∧ stem dropped = stem name ∧
      trimmed (dropExtension path) = front ++ dropped := by
  have hfile : fileName? path = some name := by rw [← fileName?_trimmed, htrim, fileName?_append hf h]
  unfold dropExtension
  rw [hfile, Option.bind_some]
  obtain ⟨-, hname⟩ | ⟨s, x, hs, hx, rfl, hname⟩ := splitName_cases name
  · rw [hname]
    exact ⟨name, h, rfl, htrim⟩
  rw [hname]
  dsimp only
  have hlength : path.length = (front ++ (s ++ '.' :: x)).length + behind.length := by
    rw [hpath, List.length_append]
  rcases le_or_gt x.length behind.length with hle | hlt
  · refine ⟨_, h, rfl, ?_⟩
    rw [trimmed_take (by rw [htrim]; omega), htrim]
  · -- a part of the extension is still there
    have hkept : x.take behind.length ≠ [] := by
      rw [ne_eq, List.take_eq_nil_iff, not_or, List.length_eq_zero_iff]
      exact ⟨hbehind, List.ne_nil_of_length_pos (by omega)⟩
    obtain ⟨hslash, -, hslash'⟩ : '/' ∉ s ∧ ¬ '/' = '.' ∧ '/' ∉ x := by simpa using h.plain
    have hdropped : IsName (s ++ '.' :: x.take behind.length) :=
      isName_suffix hs hslash hkept fun hmem => hslash' (List.mem_of_mem_take hmem)
    refine ⟨_, hdropped, ?_, ?_⟩
    · rw [stem_append hs fun hmem => hx (List.mem_of_mem_take hmem), stem_append hs hx]
    · have hcut : path.length - x.length = (front ++ (s ++ ['.'])).length + behind.length := by
        rw [hlength]
        simp only [List.length_append, List.length_cons, List.length_nil]
        omega
      have hsplit : path = front ++ (s ++ ['.']) ++ (x ++ behind) := by
        rw [hpath]
        simp
      have htake : path.take (path.length - x.length) =
          front ++ (s ++ '.' :: x.take behind.length) := by
        rw [hcut, hsplit, List.take_length_add_append, List.take_append_of_le_length hlt.le]
        simp
      rw [htake, trimmed_append hdropped.ne_nil hdropped.plain hdropped.ne_dot]

end Trailing

/-- whatever stands behind the name of a path, its stem gets the extension, or with any extension the path
leads to the directory above -/
theorem withExtension_named (h : fileName? path.toList = some name) : IsName name ∧ ∃ front, IsFront front ∧
    ((∀ ext, (withExtension path ext).toList = front ++ ['.', '.']) ∨
      ∀ ext, (withExtension path ext).toList = front ++ withSuffix (stem name) ext.toList) := by
  obtain ⟨front, hf, hname, htrim⟩ :=
    exists_front (trimmed_trimmed path.toList) ((fileName?_trimmed path.toList).trans h)
  refine ⟨hname, front, hf, ?_⟩
  obtain ⟨behind, hpath⟩ := isPrefix_trimmed path.toList
  rw [htrim] at hpath
  by_cases hbehind : behind = []
  · rw [hbehind, List.append_nil] at hpath
    refine (renamed_cases name).imp (fun hdots ext => ?_) fun hsuffix ext => ?_
    · rw [withExtension_name hpath.symm hf hname, hdots]
    · rw [withExtension_name hpath.symm hf hname, hsuffix]
  · obtain ⟨dropped, hdropped, hstem, hdrop⟩ := dropExtension_behind hf hname hpath.symm htrim hbehind
    exact .inr fun ext => hstem ▸ withExtension_of_trimmed hdrop hf hdropped

/-- a path that names nothing has no extension -/
theorem withExtension_nameless (h : fileName? path.toList = none) : withExtension path ext = path := by
  have hdrop : dropExtension path.toList = path.toList := by
    unfold dropExtension
    rw [h, Option.bind_none]
  unfold withExtension
  simp only [hdrop, h, String.ofList_toList]

/-- a path comes out as it went in if its name has the one extension that it gets -/
theorem outputPath_eq_self (hpath : path.toList = front ++ name) (hf : IsFront front) (h : IsName name)
    (hext : ext ≠ "") (hpoint : '.' ∉ ext.toList) :
    (outputPath path ext).toList = front ++ name ↔
      ∃ s, s ≠ [] ∧ s ≠ ['.'] ∧ '.' ∉ s.tail ∧ name = s ++ '.' :: ext.toList := by
  constructor
  · intro hself
    obtain hout | ⟨hout, hstem, -⟩ := toList_outputPath hpath hf h hext
    · exact absurd (List.append_cancel_left (hself.symm.trans hout)) h.ne_dots
    · have hname := List.append_cancel_left (hself.symm.trans hout)
      have hne : bareName name ≠ [] := stem_ne_nil hstem.ne_nil
      have hsame : stem name = bareName name := by
        conv_lhs => rw [hname]
        exact stem_append hne hpoint
      refine ⟨bareName name, hne, hsame ▸ hstem.ne_dot, stem_eq_self.1 ?_, hname⟩
      rw [← hsame]
      exact hsame.symm
  · rintro ⟨s, hs, hdot, hplain, rfl⟩
    have hbase : (withExtension path "").toList = front ++ s := by
      rw [withExtension_name hpath hf h, renamed, splitName_append hs hpoint]
      dsimp only
      rw [if_neg hdot]
      rfl
    have hname : IsName s := by
      refine ⟨hs, fun hmem => h.plain (List.mem_append_left _ hmem), hdot, ?_⟩
      rintro rfl
      exact hplain List.mem_cons_self
    have hout : (outputPath path ext).toList = front ++ renamed s ext.toList :=
      withExtension_name hbase hf hname
    rw [hout, renamed, splitName_plain hplain]
    dsimp only
    rw [withSuffix, if_neg (by simpa using hext)]

end Paths

end AutoLang.CommandLine.Path
