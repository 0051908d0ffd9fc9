/-
  Companions: the names of the sample file.

  The full stops of a name are found in its lower-case form, but it is the name
  itself that is cut at their byte offsets.  So it is cut at its full stops just
  where what stands before them is as long in lower case.

  * `cutAt_eq_some_iff`: a cut at a byte offset;
  * `KeepsLength`: a text takes as many bytes in lower case;
    `offsetOf_eq_iff`: the offset that is found is then the one in the text;
  * `IsDirectory`: the directories of paths; `IsDirectory.fileName?_inDirectory`:
    a name that is put into one is found there again;
  * `companionNames_law`: when the two names are the ones that are meant, and
    when there are none since an offset lies inside a character;
  * `companionNames_dotted`: both go wrong with a capital I with a dot.
-/
import Mathlib.Data.List.DropRight
import Mathlib.Data.String.Basic
import PaulaReplay.Tune.Companion

namespace PaulaReplay

open LowerCase (offsetOf growing shrinking kelvin)
open String (utf8Len utf8Len_cons utf8Len_append)

variable {a b c d cs name parent : List Char} {n : Nat}

/-! ## Cuts -/

/-- A cut at a byte offset leaves that many bytes before it. -/
theorem cutAt_eq_some_iff : cutAt n cs = some (a, b) ↔ a ++ b = cs ∧ utf8Len a = n := by
  fun_induction cutAt n cs generalizing a with
  | case1 cs =>
    constructor
    · rintro ⟨⟩
      exact ⟨rfl, rfl⟩
    · rintro ⟨rfl, hlen⟩
      cases a with
      | nil => rfl
      | cons x a =>
        rw [utf8Len_cons] at hlen
        have := x.utf8Size_pos
        omega
  | case2 n =>
    refine iff_of_false nofun fun ⟨happend, hlen⟩ => ?_
    rw [(List.append_eq_nil_iff.1 happend).1] at hlen
    cases hlen
  | case3 n x rest hfits ih =>
    simp only [Option.map_eq_some_iff, Prod.exists, Prod.mk.injEq]
    constructor
    · rintro ⟨a', b', hcut, rfl, rfl⟩
      obtain ⟨rfl, hlen⟩ := ih.1 hcut
      exact ⟨rfl, by rw [utf8Len_cons]; omega⟩
    · rintro ⟨happend, hlen⟩
      cases a with
      | nil => cases hlen
      | cons y a =>
        obtain ⟨rfl, rfl⟩ := List.cons.inj happend
        rw [utf8Len_cons] at hlen
        exact ⟨a, b, ih.2 ⟨rfl, by omega⟩, rfl, rfl⟩
  | case4 n x rest hfits =>
    refine iff_of_false nofun fun ⟨happend, hlen⟩ => ?_
    cases a with
    | nil => cases hlen
    | cons y a =>
      obtain ⟨rfl, -⟩ := List.cons.inj happend
      rw [utf8Len_cons] at hlen
      omega

/-- A byte offset lies between two characters of a text, or at one of its
    ends. -/
def OnBoundary (n : Nat) (cs : List Char) : Prop := ∃ a, a <+: cs ∧ utf8Len a = n

theorem onBoundary_iff : OnBoundary n cs ↔ ∃ cut, cutAt n cs = some cut := by
  simp only [OnBoundary, Prod.exists, cutAt_eq_some_iff]
  constructor
  · rintro ⟨a, ⟨b, happend⟩, hlen⟩
    exact ⟨a, b, happend, hlen⟩
  · rintro ⟨a, b, happend, hlen⟩
    exact ⟨a, ⟨b, happend⟩, hlen⟩

/-! ## Lower case -/

/-- The bytes that a text gains in lower case. -/
def grown (cs : List Char) : Nat := cs.countP (·.toNat ∈ growing)

/-- The bytes that a text loses in lower case. -/
def shrunk (cs : List Char) : Nat :=
  cs.countP (·.toNat ∈ shrinking) + 2 * cs.countP (·.toNat = kelvin)

/-- In lower case a text gains as many bytes as it loses. -/
def KeepsLength (cs : List Char) : Prop := grown cs = shrunk cs

instance : Decidable (KeepsLength cs) := inferInstanceAs (Decidable (grown cs = shrunk cs))

/-- What the lower-case form of a character gains and loses. -/
theorem size_add_shrunk (x : Char) : LowerCase.size x + shrunk [x] = x.utf8Size + grown [x] := by
  have hapart : ∀ k ∈ growing, k ∉ shrinking ∧ k ≠ kelvin := by decide
  have hkelvin : kelvin ∉ shrinking := by decide
  have hpos := x.utf8Size_pos
  simp only [LowerCase.size, shrunk, grown, List.countP_singleton, decide_eq_true_eq]
  by_cases hgrows : x.toNat ∈ growing
  · simp only [if_pos hgrows, if_neg (hapart _ hgrows).1, if_neg (hapart _ hgrows).2]
  · by_cases hshrinks : x.toNat ∈ shrinking
    · have hne : x.toNat ≠ kelvin := fun h => hkelvin (h ▸ hshrinks)
      simp only [if_neg hgrows, if_pos hshrinks, if_neg hne]
      omega
    · by_cases hsign : x.toNat = kelvin
      · have hsize : x.utf8Size = 3 := by
          rw [← Char.ofNat_toNat x, hsign]
          rfl
        simp only [if_neg hgrows, if_neg hshrinks, if_pos hsign, hsize]
      · simp only [if_neg hgrows, if_neg hshrinks, if_neg hsign]

theorem offsetOf_cons (x : Char) (cs : List Char) :
    offsetOf (x :: cs) = LowerCase.size x + offsetOf cs := by
  have hfrom : ∀ (cs : List Char) (n : Nat),
      cs.foldl (fun n c => n + LowerCase.size c) n = n + offsetOf cs := by
    intro cs
    induction cs with
    | nil => exact fun _ => rfl
    | cons y cs ih =>
      intro n
      have hhead : offsetOf (y :: cs) = 0 + LowerCase.size y + offsetOf cs := ih _
      rw [List.foldl_cons, ih, hhead]
      omega
  rw [offsetOf, List.foldl_cons, hfrom, Nat.zero_add]

theorem grown_cons (x : Char) (cs : List Char) : grown (x :: cs) = grown [x] + grown cs := by
  rw [grown, ← List.singleton_append, List.countP_append, grown, grown]

theorem shrunk_cons (x : Char) (cs : List Char) : shrunk (x :: cs) = shrunk [x] + shrunk cs := by
  simp only [shrunk, List.countP_cons, List.countP_nil]
  omega

/-- What a text gains and loses in lower case. -/
theorem offsetOf_add_shrunk : ∀ cs : List Char,
    offsetOf cs + shrunk cs = utf8Len cs + grown cs
  | [] => rfl
  | x :: cs => by
    have hrest := offsetOf_add_shrunk cs
    have hhead := size_add_shrunk x
    rw [offsetOf_cons, utf8Len_cons, grown_cons, shrunk_cons]
    omega

theorem offsetOf_eq_iff : utf8Len cs = offsetOf cs ↔ KeepsLength cs := by
  have := offsetOf_add_shrunk cs
  rw [KeepsLength]
  omega

/-! ## Directories -/

theorem segments_eq_splitOn (path : List Char) : segments path = path.splitOn '/' := by
  fun_induction segments path with
  | case1 => rfl
  | case2 rest ih => rw [List.splitOn_cons_eq_if_modifyHead, if_pos (beq_self_eq_true _), ih]
  | case3 x rest hx hnone ih => exact absurd (ih.symm.trans hnone) (List.splitOn_ne_nil '/' rest)
  | case4 x rest hx s more hmore ih =>
    rw [List.splitOn_cons_eq_if_modifyHead, if_neg (by simpa using hx), ← ih, hmore]
    rfl

theorem segments_ne_nil (path : List Char) : segments path ≠ [] := by
  rw [segments_eq_splitOn]
  exact List.splitOn_ne_nil '/' path

/-- No slash is left in a segment. -/
theorem notMem_of_mem_segments {path s : List Char} (h : s ∈ segments path) : '/' ∉ s := by
  fun_induction segments path generalizing s with
  | case1 =>
    rw [List.mem_singleton.1 h]
    exact List.not_mem_nil
  | case2 rest ih =>
    rcases List.mem_cons.1 h with rfl | h
    · exact List.not_mem_nil
    · exact ih h
  | case3 x rest hx hnone => exact absurd hnone (segments_ne_nil rest)
  | case4 x rest hx t more hmore ih =>
    rw [hmore] at ih
    rcases List.mem_cons.1 h with rfl | h
    · exact List.not_mem_cons_of_ne_of_not_mem (Ne.symm hx) (ih List.mem_cons_self)
    · exact ih (List.mem_cons_of_mem _ h)

/-- Segments that have been joined are found again. -/
theorem segments_joined {segs : List (List Char)} (h : ∀ s ∈ segs, '/' ∉ s) (hne : segs ≠ []) :
    segments (joined segs) = segs := by
  rw [segments_eq_splitOn, joined, List.splitOn_intercalate '/' h hne]

theorem joined_concat {segs : List (List Char)} (s : List Char) (hne : segs ≠ []) :
    joined (segs ++ [s]) = joined segs ++ '/' :: s := by
  induction segs with
  | nil => exact absurd rfl hne
  | cons t segs ih =>
    cases segs with
    | nil =>
      rw [List.singleton_append, joined, joined, List.intercalate_cons_cons,
        List.intercalate_singleton, List.intercalate_singleton, List.append_assoc]
      rfl
    | cons u segs =>
      have ih := ih (List.cons_ne_nil u segs)
      rw [joined] at ih ⊢
      rw [List.cons_append, List.intercalate_cons_of_ne_nil (by simp), ih, joined, joined,
        List.intercalate_cons_cons]
      simp only [List.append_assoc]

theorem dropStill_eq (segs : List (List Char)) : dropStill segs = segs.rdropWhile isStill := rfl

/-- A name that a file can have: no slash is in it, and it neither stays where
    it is nor leaves the directory. -/
structure IsName (s : List Char) : Prop where
  slash : '/' ∉ s
  still : isStill s = false
  inside : s ≠ upwards

/-- The directories of paths. -/
inductive IsDirectory : List Char → Prop
  | here : IsDirectory []
  | root : IsDirectory ['/']
  | under (head : List Char) (rest : List (List Char)) : head :: rest ≠ [[]] →
      dropStill rest = rest → (∀ s ∈ head :: rest, '/' ∉ s) → IsDirectory (joined (head :: rest))

/-- A path that ends in a name has it in a directory. -/
theorem isDirectory_of_fileName? {path : List Char} (h : fileName? path = some (parent, name)) :
    IsDirectory parent ∧ IsName name := by
  have hslash := @notMem_of_mem_segments path
  rw [fileName?] at h
  split at h
  · cases h
  · next head rest hsegs =>
    rw [hsegs] at hslash
    have hhead := hslash List.mem_cons_self
    have hkept : dropStill rest <+: rest := List.rdropWhile_prefix isStill rest
    split at h
    · split at h
      · cases h
      · next hname =>
        obtain ⟨rfl, rfl⟩ := Prod.mk.inj (Option.some.inj h)
        simp only [Bool.or_eq_true, beq_iff_eq, not_or, Bool.not_eq_true] at hname
        exact ⟨.here, hhead, hname.1, hname.2⟩
    · next last before hlast =>
      rw [List.reverse_eq_cons_iff] at hlast
      have hmem : ∀ s ∈ before.reverse ++ [last], '/' ∉ s := fun s hs =>
        hslash (List.mem_cons_of_mem head (hkept.subset (hlast ▸ hs)))
      have hstill : isStill last = false := by
        have hself : dropStill (dropStill rest) = dropStill rest :=
          List.rdropWhile_idempotent isStill rest
        rw [hlast, dropStill_eq, List.rdropWhile_eq_self_iff] at hself
        simpa using hself (by simp)
      split at h
      · cases h
      · next hinside =>
        obtain ⟨rfl, rfl⟩ := Prod.mk.inj (Option.some.inj h)
        refine ⟨?_, hmem last (by simp), hstill, by simpa using hinside⟩
        split
        · exact .root
        · next hroot =>
          refine .under head _ hroot (List.rdropWhile_idempotent isStill _) fun s hs => ?_
          rcases List.mem_cons.1 hs with rfl | hs
          · exact hhead
          · have hbefore := (List.rdropWhile_prefix isStill before.reverse).subset hs
            exact hmem s (List.mem_append_left _ hbefore)

/-- A text does not end in a slash if there is none in its last part. -/
theorem getLast?_ne_slash {s : List Char} (t : List Char) (hne : s ≠ []) (hslash : '/' ∉ s) :
    (t ++ s).getLast? ≠ some '/' := by
  rw [List.getLast?_append_of_ne_nil t hne]
  exact fun h => hslash (List.mem_of_getLast? h)

/-- Segments that begin not just at the root and end in a name are joined to a
    text that does not end in a slash. -/
theorem joined_getLast? {head : List Char} {rest : List (List Char)} (hroot : head :: rest ≠ [[]])
    (hkept : dropStill rest = rest) (hslash : ∀ s ∈ head :: rest, '/' ∉ s) :
    joined (head :: rest) ≠ [] ∧ (joined (head :: rest)).getLast? ≠ some '/' := by
  rcases List.eq_nil_or_concat' rest with rfl | ⟨before, last, rfl⟩
  · have hne : head ≠ [] := fun h => hroot (by rw [h])
    rw [joined, List.intercalate_singleton]
    exact ⟨hne, getLast?_ne_slash [] hne (hslash head List.mem_cons_self)⟩
  · have hstill : isStill last = false := by
      rw [dropStill_eq, List.rdropWhile_eq_self_iff] at hkept
      simpa using hkept (by simp)
    have hne : last ≠ [] := by
      rintro rfl
      cases hstill
    rw [← List.cons_append, joined_concat last (List.cons_ne_nil head before),
      List.append_cons]
    exact ⟨by simp, getLast?_ne_slash _ hne (hslash last (by simp))⟩

/-- The name of a file is the last segment of its path. -/
theorem fileName?_of_segments {path head : List Char} {before : List (List Char)}
    (hsegs : segments path = head :: (before ++ [name])) (hname : IsName name) :
    fileName? path = some (if head :: dropStill before = [[]] then ['/']
      else joined (head :: dropStill before), name) := by
  have hlast : (dropStill (before ++ [name])).reverse = name :: before.reverse := by
    rw [dropStill_eq, List.rdropWhile_concat_neg isStill before name (by simp [hname.still]),
      List.reverse_append]
    rfl
  rw [fileName?, hsegs]
  simp only [hlast, List.reverse_reverse, beq_iff_eq, if_neg hname.inside]

/-- A name that is put into a directory is found there again. -/
theorem IsDirectory.fileName?_inDirectory (hdir : IsDirectory parent) (hname : IsName name) :
    fileName? (inDirectory parent name) = some (parent, name) := by
  have hfirst : name.head? ≠ some '/' := fun h => hname.slash (List.mem_of_head? h)
  cases hdir with
  | here =>
    have hsegs : segments name = [name] := by
      simpa [joined] using segments_joined (List.forall_mem_singleton.2 hname.slash) (by simp)
    have hinside := hname.inside
    rw [inDirectory, if_pos (by simp), fileName?, hsegs]
    simp [dropStill, hname.still, hinside]
  | root =>
    have hpath : inDirectory ['/'] name = joined [[], name] := by
      simp [inDirectory, hfirst, joined]
    have hslash : ∀ s ∈ [[], name], '/' ∉ s := by simp [hname.slash]
    have hsegs : segments (joined [[], name]) = [] :: ([] ++ [name]) :=
      segments_joined hslash (by simp)
    rw [hpath, fileName?_of_segments hsegs hname]
    rfl
  | under head rest hroot hkept hslash =>
    obtain ⟨hne, hlast⟩ := joined_getLast? hroot hkept hslash
    have hpath : inDirectory (joined (head :: rest)) name = joined (head :: rest ++ [name]) := by
      rw [joined_concat name (List.cons_ne_nil head rest), inDirectory,
        if_neg (by simp [hfirst, hne]), if_neg hlast]
    have hsegs : segments (joined (head :: rest ++ [name])) = head :: rest ++ [name] := by
      refine segments_joined (fun s hs => ?_) (by simp)
      rcases List.mem_append.1 hs with hs | hs
      · exact hslash s hs
      · exact List.mem_singleton.1 hs ▸ hname.slash
    rw [hpath, fileName?_of_segments hsegs hname, hkept, if_neg hroot]

/-- What is put into a directory is told by its path. -/
theorem inDirectory_inj {s t : List Char} (hs : '/' ∉ s) (ht : '/' ∉ t)
    (h : inDirectory parent s = inDirectory parent t) : s = t := by
  have hfirst : ∀ {u : List Char}, '/' ∉ u → u.head? ≠ some '/' :=
    fun hu h => hu (List.mem_of_head? h)
  rw [inDirectory, inDirectory] at h
  simp only [hfirst hs, hfirst ht, decide_false, Bool.false_or] at h
  split at h
  · exact h
  · split at h
    · exact List.append_cancel_left h
    · exact List.tail_eq_of_cons_eq (List.append_cancel_left h)

/-! ## Full stops -/

theorem beforeFirst_eq (h : '.' ∉ a) : beforeFirst (a ++ '.' :: b) = a := by
  have hpass : ∀ x ∈ a, (x != '.') = true := fun x hx => bne_iff_ne.2 fun hdot => h (hdot ▸ hx)
  rw [beforeFirst, List.takeWhile_append_of_pos hpass, List.takeWhile_cons_of_neg (by simp),
    List.append_nil]

theorem beforeLast_eq (h : '.' ∉ d) : beforeLast (c ++ '.' :: d) = c := by
  have hpass : ∀ x ∈ d.reverse, (x != '.') = true := fun x hx =>
    bne_iff_ne.2 fun hdot => h (hdot ▸ List.mem_reverse.1 hx)
  rw [beforeLast, List.reverse_append, List.reverse_cons, List.append_assoc,
    List.dropWhile_append_of_pos hpass, List.singleton_append, List.dropWhile_cons_of_neg (by simp),
    List.drop_one, List.tail_cons, List.reverse_reverse]

/-- A name is cut behind a beginning of it if, and only if, that is as long in
    lower case. -/
theorem cutAt_offsetOf_iff : cutAt (offsetOf a) (a ++ b) = some (a, b) ↔ KeepsLength a := by
  rw [cutAt_eq_some_iff, ← offsetOf_eq_iff, and_iff_right rfl]

/-! ## The names of the sample file -/

variable {ext : String}

/-- The names of the sample file by the two cuts of the name. -/
theorem companionNames_eq {path : String} (hfile : fileName? path.toList = some (parent, name))
    (hfirst : name = a ++ '.' :: b) (ha : '.' ∉ a) (hlast : name = c ++ '.' :: d) (hd : '.' ∉ d) :
    companionNames path ext =
      (cutAt (offsetOf a) name).bind fun (_, tail) =>
        (cutAt (offsetOf c) name).map fun (head, _) =>
          [String.ofList (inDirectory parent (ext.toList ++ tail)),
            String.ofList (inDirectory parent (head ++ '.' :: ext.toList))] := by
  have hdot : '.' ∈ name := by simp [hfirst]
  have hbeforeFirst : beforeFirst name = a := hfirst ▸ beforeFirst_eq ha
  have hbeforeLast : beforeLast name = c := hlast ▸ beforeLast_eq hd
  rw [companionNames, hfile]
  simp only [if_pos hdot, hbeforeFirst, hbeforeLast]
  cases cutAt (offsetOf a) name with
  | none => rfl
  | some first => cases cutAt (offsetOf c) name <;> rfl

/-- The names that are meant come from the cuts at the full stops alone. -/
theorem companionNames_eq_some_iff {path : String}
    (hfile : fileName? path.toList = some (parent, name)) (hext : '/' ∉ ext.toList)
    (hfirst : name = a ++ '.' :: b) (ha : '.' ∉ a) (hlast : name = c ++ '.' :: d) (hd : '.' ∉ d) :
    companionNames path ext =
        some [String.ofList (inDirectory parent (ext.toList ++ '.' :: b)),
          String.ofList (inDirectory parent (c ++ '.' :: ext.toList))] ↔
      KeepsLength a ∧ KeepsLength c := by
  have hname := (isDirectory_of_fileName? hfile).2
  have hslash : ∀ {s : List Char}, s ⊆ name → '/' ∉ s := fun hs h => hname.slash (hs h)
  rw [companionNames_eq hfile hfirst ha hlast hd]
  constructor
  · intro h
    obtain ⟨⟨a', tail⟩, hcut, h⟩ := Option.bind_eq_some_iff.1 h
    obtain ⟨⟨head, d'⟩, hcut', h⟩ := Option.map_eq_some_iff.1 h
    obtain ⟨happend, hlen⟩ := cutAt_eq_some_iff.1 hcut
    obtain ⟨happend', hlen'⟩ := cutAt_eq_some_iff.1 hcut'
    simp only [List.cons.injEq, String.ofList_inj, and_true] at h
    have htail : tail = '.' :: b := by
      refine List.append_cancel_left (inDirectory_inj ?_ ?_ h.1)
      · simp only [List.mem_append, not_or]
        exact ⟨hext, hslash (happend ▸ List.subset_append_right a' tail)⟩
      · simp only [List.mem_append, not_or]
        exact ⟨hext, hslash (hfirst ▸ List.subset_append_right a _)⟩
    have hhead : head = c := by
      refine List.append_cancel_right (inDirectory_inj ?_ ?_ h.2)
      · simp only [List.mem_append, List.mem_cons, not_or]
        exact ⟨hslash (happend' ▸ List.subset_append_left head d'), by decide, hext⟩
      · simp only [List.mem_append, List.mem_cons, not_or]
        exact ⟨hslash (hlast ▸ List.subset_append_left c _), by decide, hext⟩
    have hsame : a' = a := by
      rw [htail, hfirst] at happend
      exact List.append_cancel_right happend
    rw [hsame] at hlen
    rw [hhead] at hlen'
    exact ⟨offsetOf_eq_iff.1 hlen, offsetOf_eq_iff.1 hlen'⟩
  · rintro ⟨hkeeps, hkeeps'⟩
    have hcut : cutAt (offsetOf a) name = some (a, '.' :: b) :=
      hfirst ▸ cutAt_offsetOf_iff.2 hkeeps
    have hcut' : cutAt (offsetOf c) name = some (c, '.' :: d) :=
      hlast ▸ cutAt_offsetOf_iff.2 hkeeps'
    rw [hcut, hcut']
    rfl

/-- A file without a full stop in its name has no names for its sample file.
    With one the names are two, the name up to its first full stop replaced by
    the extension and what stands behind its last one, if, and only if, what
    stands before the first and before the last is as long in lower case.
    There are none if an offset that is found does not lie between two
    characters, and in all other cases two.  The names that are meant lie in the
    directory of the file. -/
theorem companionNames_law {path : String}
    (hfile : fileName? path.toList = some (parent, name)) (hext : '/' ∉ ext.toList) :
    ('.' ∉ name → companionNames path ext = some []) ∧
    ∀ a b c d, name = a ++ '.' :: b → '.' ∉ a → name = c ++ '.' :: d → '.' ∉ d →
      (companionNames path ext =
          some [String.ofList (inDirectory parent (ext.toList ++ '.' :: b)),
            String.ofList (inDirectory parent (c ++ '.' :: ext.toList))] ↔
        KeepsLength a ∧ KeepsLength c) ∧
      (companionNames path ext = none ↔
        ¬ (OnBoundary (offsetOf a) name ∧ OnBoundary (offsetOf c) name)) ∧
      (∀ names, companionNames path ext = some names → names.length = 2) ∧
      ∀ s ∈ [ext.toList ++ '.' :: b, c ++ '.' :: ext.toList], isStill s = false → s ≠ upwards →
        fileName? (inDirectory parent s) = some (parent, s) := by
  obtain ⟨hdir, hname⟩ := isDirectory_of_fileName? hfile
  refine ⟨fun hdot => ?_, fun a b c d hfirst ha hlast hd => ⟨?_, ?_, fun names hnames => ?_, ?_⟩⟩
  · rw [companionNames, hfile]
    simp only [if_neg hdot]
  · exact companionNames_eq_some_iff hfile hext hfirst ha hlast hd
  · rw [companionNames_eq hfile hfirst ha hlast hd, onBoundary_iff, onBoundary_iff]
    cases cutAt (offsetOf a) name <;> cases cutAt (offsetOf c) name <;> simp
  · rw [companionNames_eq hfile hfirst ha hlast hd] at hnames
    obtain ⟨⟨_, tail⟩, _, hnames⟩ := Option.bind_eq_some_iff.1 hnames
    obtain ⟨⟨head, _⟩, _, rfl⟩ := Option.map_eq_some_iff.1 hnames
    rfl
  · intro s hs hstill hinside
    refine hdir.fileName?_inDirectory ⟨?_, hstill, hinside⟩
    have hb : '/' ∉ '.' :: b := fun h =>
      hname.slash (hfirst ▸ List.mem_append_right a h)
    have hc : '/' ∉ c := fun h => hname.slash (hlast ▸ List.mem_append_left _ h)
    rcases List.mem_pair.1 hs with rfl | rfl
    · exact fun h => (List.mem_append.1 h).elim hext hb
    · rw [List.mem_append, List.mem_cons]
      exact fun h => h.elim hc fun h => h.elim (by decide) hext

/-- A name of one full stop. -/
theorem companionNames_turrican : fileName? "/mods/mdat.turrican".toList =
      some ("/mods".toList, "mdat.turrican".toList) ∧
    '/' ∉ "smpl".toList ∧
    companionNames "/mods/mdat.turrican" "smpl" =
      some ["/mods/smpl.turrican", "/mods/mdat.smpl"] := by
  have hfile : fileName? "/mods/mdat.turrican".toList =
      some ("/mods".toList, "mdat.turrican".toList) := by decide
  have hext : '/' ∉ "smpl".toList := by decide
  refine ⟨hfile, hext, ?_⟩
  have hlaw := (companionNames_law hfile hext).2 "mdat".toList "turrican".toList "mdat".toList
    "turrican".toList (by decide) (by decide) (by decide) (by decide)
  exact hlaw.1.2 ⟨by decide, by decide⟩

/-- A capital I with a dot is a byte longer in lower case.  With one of them
    the first name has lost the full stop and the second one has two; with two
    of them an offset lies inside a character, and there is no name at all. -/
theorem companionNames_dotted :
    (fileName? "/mods/\u0130.mdat".toList = some ("/mods".toList, "\u0130.mdat".toList) ∧
      companionNames "/mods/\u0130.mdat" "smpl" =
        some ["/mods/smplmdat", "/mods/\u0130..smpl"]) ∧
    (fileName? "\u0130\u0130.\u00e9".toList = some ([], "\u0130\u0130.\u00e9".toList) ∧
      companionNames "\u0130\u0130.\u00e9" "smpl" = none) := by
  decide

end PaulaReplay
