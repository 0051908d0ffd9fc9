/-
  Acceptance: which files are tunes, and what is wrong with the others.

  * `Probe.trackPlace`, `Probe.patternPlace`, `Probe.macroPlace`: where the
    tables begin; `Probe.FirstPattern`: where the first pattern begins;
  * `Fault`: what may be wrong with a file whose kind is known, in the order in
    which the loader comes to it, with what it reports then;
  * `loadScore_eq_error_iff`: the loader reports the first fault, and
    `exists_loadScore_iff`: it accepts all files without one;
  * `Probe.Sliced`: all that the loader cuts out and reads is there;
  * `load_fails_iff`: all of this of whole tunes.
-/
import Mathlib.Tactic.Choose
import PaulaReplay.Proofs.Store

namespace PaulaReplay

open Bytes

variable {b : ByteArray} {samples? : Option ByteArray} {p : Probe} {s : Score} {o usual : Nat}
  {v : UInt32}

theorem exists_of_bind_eq_error {ε α β : Type} {x : Except ε α} {f : α → Except ε β} {e : ε}
    (h : x >>= f = .error e) : x = .error e ∨ ∃ a, x = .ok a ∧ f a = .error e := by
  cases x with
  | ok a => exact .inr ⟨a, rfl, h⟩
  | error e' => cases h; exact .inl rfl

theorem exists_mapM {ε α β : Type} {f : α → Except ε β} : ∀ {xs : List α},
    (∀ x ∈ xs, ∃ y, f x = .ok y) → ∃ ys, xs.mapM f = .ok ys
  | [], _ => ⟨[], rfl⟩
  | x :: xs, h => by
    obtain ⟨y, hy⟩ := h x List.mem_cons_self
    obtain ⟨ys, hys⟩ := exists_mapM fun x hx => h x (List.mem_cons_of_mem _ hx)
    exact ⟨y :: ys, by rw [List.mapM_cons, hy, hys]; rfl⟩

/-! ## Tables -/

/-- The word at `o` says that a table begins inside the header. -/
def InsideHeader (b : ByteArray) (o : Nat) (v : UInt32) : Prop :=
  u32? b o = some v ∧ v ≠ 0 ∧ v.toNat < headerSize

/-- Where the table begins that the word at `o` places, in the music data. -/
def tablePlace (b : ByteArray) (o usual : Nat) : Nat :=
  match u32? b o with
  | some v => if v = 0 then usual else v.toNat - headerSize
  | none => usual

theorem tableBaseAt_of_insideHeader (h : InsideHeader b o v) (usual : Nat) :
    tableBaseAt b o usual = .error (.load (.invalidBase v)) := by
  obtain ⟨hv, h0, hlt⟩ := h
  rw [tableBaseAt, hv]
  show tableBase v usual = _
  rw [tableBase, if_neg h0, if_pos hlt]

theorem tableBaseAt_eq (hread : u32? b o ≠ none) (h : ∀ v, ¬ InsideHeader b o v) (usual : Nat) :
    tableBaseAt b o usual = .ok (tablePlace b o usual) := by
  obtain ⟨v, hv⟩ := Option.ne_none_iff_exists'.1 hread
  rw [tableBaseAt, tablePlace, hv]
  show tableBase v usual = .ok (if v = 0 then usual else v.toNat - headerSize)
  unfold tableBase
  split
  · rfl
  · next h0 => rw [if_neg fun hlt => h v ⟨hv, h0, hlt⟩]

namespace Probe

/-- Where the track steps begin. -/
def trackPlace (p : Probe) (b : ByteArray) : Nat := tablePlace b (p.start + tableOffset) 0x600

/-- Where the table of the patterns begins. -/
def patternPlace (p : Probe) (b : ByteArray) : Nat :=
  tablePlace b (p.start + tableOffset + 4) 0x200

/-- Where the table of the macros begins. -/
def macroPlace (p : Probe) (b : ByteArray) : Nat :=
  tablePlace b (p.start + tableOffset + 8) 0x400

/-- The music data of a file. -/
def music (p : Probe) (b : ByteArray) : ByteArray :=
  musicData b (p.start + headerSize) (p.musicSize b)

/-- The first pattern begins at `o`: its table has room for a pointer in front
    of the one of the macros, and the pointer there is valid. -/
def FirstPattern (p : Probe) (b : ByteArray) (o : UInt32) : Prop :=
  p.patternPlace b + 4 ≤ p.macroPlace b ∧ Entry (p.music b) (p.musicSize b) (p.patternPlace b) o

theorem FirstPattern.unique {o o' : UInt32} (h : p.FirstPattern b o) (h' : p.FirstPattern b o') :
    o = o' := by
  have hread := bind_pointer?_eq_some_iff.2 h.2
  rw [bind_pointer?_eq_some_iff.2 h'.2] at hread
  exact (Option.some.inj hread).symm

/-- The first pattern is the first entry of the table. -/
theorem firstPattern_iff {o : UInt32} : p.FirstPattern b o ↔
    (pointerTable (p.music b) (p.musicSize b) (p.patternPlace b)
      (patternLimit (p.patternPlace b) (p.macroPlace b)))[0]? = some o := by
  have hmax : maxPointers = 128 := rfl
  rw [FirstPattern, ← bind_pointer?_eq_some_iff, pointerTable, List.getElem?_toArray]
  unfold patternLimit
  cases hlimit : min ((p.macroPlace b - p.patternPlace b) / 4) maxPointers with
  | zero =>
    refine iff_of_false (fun h => ?_) (fun h => by cases h)
    omega
  | succ n =>
    rw [pointerList, and_iff_right (by omega)]
    split
    · next q hq => rw [hq]; rfl
    · next hnone => rw [hnone]; exact iff_of_false (by rintro ⟨⟩) (by rintro ⟨⟩)

end Probe

/-! ## Faults -/

/-- What may be wrong with a file whose kind is known, and what is reported
    then.  The faults are numbered in the order in which the loader comes to
    them. -/
inductive Fault (b : ByteArray) (samples? : Option ByteArray) (p : Probe) : Nat → LoadError → Prop
  /-- The file ends inside the header. -/
  | header : b.size < p.start + headerSize → Fault b samples? p 0 .truncatedHeader
  /-- A table begins inside the header. -/
  | trackBase {v : UInt32} : InsideHeader b (p.start + tableOffset) v →
      Fault b samples? p 1 (.invalidBase v)
  | patternBase {v : UInt32} : InsideHeader b (p.start + tableOffset + 4) v →
      Fault b samples? p 2 (.invalidBase v)
  | macroBase {v : UInt32} : InsideHeader b (p.start + tableOffset + 8) v →
      Fault b samples? p 3 (.invalidBase v)
  /-- There is too much music data. -/
  | musicSize : maxMusicSize < p.musicSize b →
      Fault b samples? p 4 (.musicTooLarge (p.musicSize b))
  /-- There is no first pattern. -/
  | noPatterns : (∀ o, ¬ p.FirstPattern b o) → Fault b samples? p 5 .noPatterns
  /-- The first pattern lies in front of the track steps. -/
  | patternsFirst {o : UInt32} : p.FirstPattern b o → o.toNat < p.trackPlace b →
      Fault b samples? p 6 (.patternsFirst o.toNat (p.trackPlace b))
  /-- The samples of a container lie outside it. -/
  | samplesOutside {c : Container} : p.container? = some c →
      b.size < c.headerSize.toNat + c.musicSize.toNat + c.sampleSize.toNat →
      Fault b samples? p 7 .samplesOutside
  /-- A music file is without its sample file. -/
  | missingSamples : p.container? = none → samples? = none → Fault b samples? p 7 .missingSamples

/-- There is none of the first `k` faults. -/
def Clear (b : ByteArray) (samples? : Option ByteArray) (p : Probe) (k : Nat) : Prop :=
  ∀ j < k, ∀ cause, ¬ Fault b samples? p j cause

/-- The first fault of a file. -/
structure FirstFault (b : ByteArray) (samples? : Option ByteArray) (p : Probe) (k : Nat)
    (cause : LoadError) : Prop where
  fault : Fault b samples? p k cause
  first : Clear b samples? p k

theorem Clear.succ {k : Nat} (h : Clear b samples? p k) (hk : ∀ cause, ¬ Fault b samples? p k cause) :
    Clear b samples? p (k + 1) := by
  intro j hj
  rcases Nat.lt_succ_iff_lt_or_eq.1 hj with hj | rfl
  · exact h j hj
  · exact hk

/-- A fault is reported in one way. -/
theorem Fault.unique {k : Nat} {cause cause' : LoadError} (h : Fault b samples? p k cause)
    (h' : Fault b samples? p k cause') : cause = cause' := by
  have hinside : ∀ {o v w}, InsideHeader b o v → InsideHeader b o w → v = w := fun hv hw =>
    Option.some.inj (hv.1.symm.trans hw.1)
  cases h with
  | header => cases h'; rfl
  | trackBase hv => cases h' with | trackBase hw => rw [hinside hv hw]
  | patternBase hv => cases h' with | patternBase hw => rw [hinside hv hw]
  | macroBase hv => cases h' with | macroBase hw => rw [hinside hv hw]
  | musicSize => cases h'; rfl
  | noPatterns => cases h'; rfl
  | patternsFirst ho => cases h' with | patternsFirst ho' _ => rw [ho.unique ho']
  | samplesOutside hc =>
    cases h' with
    | samplesOutside => rfl
    | missingSamples hnone => rw [hc] at hnone; cases hnone
  | missingSamples hnone =>
    cases h' with
    | samplesOutside hc => rw [hc] at hnone; cases hnone
    | missingSamples => rfl

/-- The samples are looked at last. -/
theorem Fault.of_lt {k : Nat} {cause : LoadError} (h : Fault b samples? p k cause) (hk : k < 7)
    (other? : Option ByteArray) : Fault b other? p k cause := by
  cases h with
  | header hlt => exact .header hlt
  | trackBase hv => exact .trackBase hv
  | patternBase hv => exact .patternBase hv
  | macroBase hv => exact .macroBase hv
  | musicSize hlt => exact .musicSize hlt
  | noPatterns hnone => exact .noPatterns hnone
  | patternsFirst ho hlt => exact .patternsFirst ho hlt
  | samplesOutside | missingSamples => exact absurd hk (by decide)

theorem FirstFault.unique {k k' : Nat} {cause cause' : LoadError}
    (h : FirstFault b samples? p k cause) (h' : FirstFault b samples? p k' cause') :
    cause = cause' := by
  rcases Nat.lt_trichotomy k k' with hlt | rfl | hlt
  · exact absurd h.fault (h'.first k hlt cause)
  · exact h.fault.unique h'.fault
  · exact absurd h'.fault (h.first k' hlt cause')

/-! ## What is read -/

section Header

variable (h : p.start + headerSize ≤ b.size)
include h

theorem u16?_of_header {o : Nat} (ho : o + 2 ≤ headerSize) :
    ∃ v, u16? b (p.start + o) = some v :=
  Option.ne_none_iff_exists'.1 fun hnone => by
    have := u16?_eq_none_iff.1 hnone
    omega

theorem u32?_of_header {o : Nat} (ho : o + 4 ≤ headerSize) :
    ∃ v, u32? b (p.start + o) = some v :=
  Option.ne_none_iff_exists'.1 fun hnone => by
    have := u32?_eq_none_iff.1 hnone
    omega

theorem slice?_of_header {o n : Nat} (ho : o + n ≤ headerSize) :
    ∃ t, slice? b (p.start + o) n = some t :=
  Option.ne_none_iff_exists'.1 fun hnone => by
    have := slice?_eq_none_iff.1 hnone
    omega

theorem exists_commentLines : ∃ comment, commentLines b p.start = .ok comment := by
  refine exists_mapM fun i hi => ?_
  have hi := List.mem_range.1 hi
  have hheader : headerSize = 512 := rfl
  obtain ⟨t, ht⟩ := slice?_of_header h (o := 16 + i * 40) (n := 40) (by omega)
  rw [← Nat.add_assoc] at ht
  exact ⟨_, by rw [text?, ht]; rfl⟩

theorem exists_songTable : ∃ songs, songTable b p.start = .ok songs := by
  have hentry : ∀ i, ∃ song, songEntry b p.start i = .ok song := by
    intro i
    have hi := i.isLt
    have hheader : headerSize = 512 := rfl
    have hstart : songStartOffset = 256 := rfl
    obtain ⟨x, hx⟩ := u16?_of_header h (o := songStartOffset + i.val * 2) (by omega)
    obtain ⟨y, hy⟩ := u16?_of_header h (o := 0x140 + i.val * 2) (by omega)
    obtain ⟨z, hz⟩ := u16?_of_header h (o := 0x180 + i.val * 2) (by omega)
    rw [← Nat.add_assoc] at hx hy hz
    exact ⟨⟨x, y, z⟩, by rw [songEntry, hx, hy, hz]; rfl⟩
  choose song hsong using hentry
  have hpure : songEntry b p.start = fun i => pure (song i) := funext hsong
  rw [songTable, hpure]
  exact ⟨_, Vector.mapM_pure song⟩

end Header

/-- The track steps end before the first pattern, and so within the music
    data. -/
theorem exists_trackSteps {music : ByteArray} {base n : Nat} (h : base + n * 16 ≤ music.size) :
    ∃ steps, trackSteps music base n = .ok steps := by
  have htoArray : ∀ {x : Except Error (List TrackStep)}, (∃ steps, x = .ok steps) →
      ∃ steps, List.toArray <$> x = .ok steps := by
    rintro _ ⟨steps, rfl⟩
    exact ⟨steps.toArray, rfl⟩
  rw [trackSteps, Array.mapM_eq_mapM_toList]
  refine htoArray (exists_mapM fun i hi => ?_)
  rw [Array.toList_range, List.mem_range] at hi
  obtain ⟨t, ht⟩ := Option.ne_none_iff_exists'.1
    fun hnone : trackStepAt? music (base + i * 16) = none => by
      have := trackStepAt?_eq_none_iff.1 hnone
      omega
  exact ⟨t, by rw [ht]⟩

/-- The track steps in front of the first pattern lie in the music data. -/
theorem Probe.FirstPattern.fits {o : UInt32} (h : p.FirstPattern b o)
    (hle : p.trackPlace b ≤ o.toNat) :
    p.trackPlace b + (o.toNat - p.trackPlace b) / 16 * 16 ≤ (p.music b).size := by
  obtain ⟨-, v, -, -, -, -, hsize⟩ := h
  rw [Probe.music, size_musicData]
  omega

/-! ## What is reported -/

/-- The place of a table is inside the header, or the loader goes on with it. -/
theorem insideHeader_or {α : Type} {f : Nat → Except Error α} {e : Error}
    (hv : u32? b o = some v)
    (h : (orShortRead (u32? b o) >>= fun v => tableBase v usual >>= f) = .error e) :
    (InsideHeader b o v ∧ e = .load (.invalidBase v)) ∨
      ((∀ w, ¬ InsideHeader b o w) ∧ f (tablePlace b o usual) = .error e) := by
  have h : tableBaseAt b o usual >>= f = .error e := by
    rw [tableBaseAt, hv]
    rw [hv] at h
    exact h
  by_cases hinside : InsideHeader b o v
  · rw [tableBaseAt_of_insideHeader hinside] at h
    cases h
    exact .inl ⟨hinside, rfl⟩
  · have hnone : ∀ w, ¬ InsideHeader b o w := fun w hw =>
      hinside (Option.some.inj (hw.1.symm.trans hv) ▸ hw)
    rw [tableBaseAt_eq (by rw [hv]; rintro ⟨⟩) hnone] at h
    exact .inr ⟨hnone, h⟩

theorem fault_of_sampleBank {e : Error} (h : sampleBank b p.container? samples? = .error e) :
    ∃ cause, e = .load cause ∧ Fault b samples? p 7 cause := by
  unfold sampleBank at h
  split at h
  · next c hc =>
    split at h
    · cases h
    · next hnone =>
      cases h
      exact ⟨_, rfl, .samplesOutside hc (slice?_eq_none_iff.1 hnone)⟩
  · next hc =>
    split at h
    · cases h
    · cases h
      exact ⟨_, rfl, .missingSamples hc rfl⟩

/-- The loader reports the first fault: where it stops, there is one, and there
    is none where it goes on. -/
theorem exists_firstFault {e : Error} (h : loadScore b samples? p = .error e) :
    ∃ k cause, e = .load cause ∧ FirstFault b samples? p k cause := by
  have hclear : Clear b samples? p 0 := fun j hj => absurd hj (Nat.not_lt_zero j)
  unfold loadScore at h
  extract_lets start musicSize data rest at h
  split at h
  · next hsize =>
    cases h
    exact ⟨0, _, rfl, .header hsize, hclear⟩
  next hsize =>
  have hheader : p.start + headerSize ≤ b.size := Nat.not_lt.1 hsize
  replace hclear := hclear.succ fun cause hf => by cases hf; exact hsize ‹_›
  -- all that the header holds can be read, and only places are refused
  obtain ⟨v, hv⟩ := u32?_of_header hheader (show tableOffset + 4 ≤ headerSize by decide)
  obtain ⟨w, hw⟩ := u32?_of_header hheader (show tableOffset + 4 + 4 ≤ headerSize by decide)
  obtain ⟨x, hx⟩ := u32?_of_header hheader (show tableOffset + 8 + 4 ≤ headerSize by decide)
  obtain ⟨comment, hcomment⟩ := exists_commentLines hheader
  obtain ⟨songs, hsongs⟩ := exists_songTable hheader
  unfold rest at h
  rcases exists_of_bind_eq_error h with h | ⟨_, -, h⟩
  · cases hcomment.symm.trans h
  rcases exists_of_bind_eq_error h with h | ⟨_, -, h⟩
  · cases hsongs.symm.trans h
  rcases insideHeader_or hv h with ⟨hinside, rfl⟩ | ⟨htrack, h⟩
  · exact ⟨1, _, rfl, .trackBase hinside, hclear⟩
  replace hclear := hclear.succ fun cause hf => by cases hf; exact htrack _ ‹_›
  rcases insideHeader_or hw h with ⟨hinside, rfl⟩ | ⟨hpattern, h⟩
  · exact ⟨2, _, rfl, .patternBase hinside, hclear⟩
  replace hclear := hclear.succ fun cause hf => by cases hf; exact hpattern _ ‹_›
  rcases insideHeader_or hx h with ⟨hinside, rfl⟩ | ⟨hprogram, h⟩
  · exact ⟨3, _, rfl, .macroBase hinside, hclear⟩
  replace hclear := hclear.succ fun cause hf => by cases hf; exact hprogram _ ‹_›
  extract_lets macros patterns rest₂ at h
  split at h
  · next hlarge =>
    cases h
    exact ⟨4, _, rfl, .musicSize hlarge, hclear⟩
  next hlarge =>
  replace hclear := hclear.succ fun cause hf => by cases hf; exact hlarge ‹_›
  unfold rest₂ at h
  split at h
  · next hnone =>
    cases h
    refine ⟨5, _, rfl, .noPatterns fun o ho => ?_, hclear⟩
    cases hnone.symm.trans (Probe.firstPattern_iff.1 ho)
  next first hfirst =>
  have hfirst : p.FirstPattern b first := Probe.firstPattern_iff.2 hfirst
  replace hclear := hclear.succ fun cause hf => by
    cases hf
    exact (‹∀ o, ¬ p.FirstPattern b o›) first hfirst
  extract_lets rest₃ at h
  split at h
  · next hlt =>
    cases h
    exact ⟨6, _, rfl, .patternsFirst hfirst hlt, hclear⟩
  next hlt =>
  replace hclear := hclear.succ fun cause hf => by
    cases hf with
    | patternsFirst ho hlt' => exact hlt (hfirst.unique ho ▸ hlt')
  unfold rest₃ at h
  rcases exists_of_bind_eq_error h with h | ⟨steps, -, h⟩
  · obtain ⟨steps, hsteps⟩ := exists_trackSteps (hfirst.fits (Nat.not_lt.1 hlt))
    cases hsteps.symm.trans h
  rcases exists_of_bind_eq_error h with h | ⟨bank, -, h⟩
  · obtain ⟨cause, rfl, hfault⟩ := fault_of_sampleBank h
    exact ⟨7, cause, rfl, hfault, hclear⟩
  · cases h

theorem tableBaseAt_eq_ok {n : Nat} (h : tableBaseAt b o usual = .ok n) :
    (∀ v, ¬ InsideHeader b o v) ∧ n = tablePlace b o usual := by
  have hnone : ∀ v, ¬ InsideHeader b o v := fun v hv => by
    rw [tableBaseAt_of_insideHeader hv] at h
    cases h
  have hread : u32? b o ≠ none := fun hread => by
    rw [tableBaseAt, hread] at h
    cases h
  rw [tableBaseAt_eq hread hnone] at h
  exact ⟨hnone, (Except.ok.inj h).symm⟩

/-- A file that is accepted has no fault. -/
theorem Score.IsReadFrom.clear (h : s.IsReadFrom b samples? p) (k : Nat) :
    Clear b samples? p k := by
  obtain ⟨htrack, htrackStart⟩ := tableBaseAt_eq_ok h.trackStart
  obtain ⟨hpattern, hpatternStart⟩ := tableBaseAt_eq_ok h.patternStart
  obtain ⟨hprogram, hmacroStart⟩ := tableBaseAt_eq_ok h.macroStart
  obtain ⟨first, hfirst, hle, -⟩ := h.trackSteps
  have hfirst : p.FirstPattern b first := by
    rw [Probe.firstPattern_iff, ← hfirst, h.patterns, h.music, h.musicSize, hpatternStart,
      hmacroStart]
    rfl
  intro j _ cause hfault
  cases hfault with
  | header hlt => exact Nat.not_lt.2 h.header hlt
  | trackBase hv => exact htrack _ hv
  | patternBase hv => exact hpattern _ hv
  | macroBase hv => exact hprogram _ hv
  | musicSize hlt => exact Nat.not_lt.2 h.musicSize_le (h.musicSize ▸ hlt)
  | noPatterns hnone => exact hnone first hfirst
  | patternsFirst ho hlt =>
    rw [ho.unique hfirst] at hlt
    rw [htrackStart] at hle
    exact Nat.not_lt.2 hle hlt
  | samplesOutside hc hlt =>
    have hbank := h.bank
    simp only [sampleBank, hc, slice?_eq_none_iff.2 hlt, reduceCtorEq] at hbank
  | missingSamples hc hs =>
    have hbank := h.bank
    simp only [sampleBank, hc, hs, reduceCtorEq] at hbank

theorem exists_loadScore_iff : (∃ s, loadScore b samples? p = .ok s) ↔
    ∀ k cause, ¬ Fault b samples? p k cause := by
  constructor
  · rintro ⟨s, hs⟩ k cause
    exact (loadScore_eq_ok_iff.1 hs).clear (k + 1) k (Nat.lt_succ_self k) cause
  · intro hnone
    cases hload : loadScore b samples? p with
    | ok s => exact ⟨s, rfl⟩
    | error e =>
      obtain ⟨k, cause, -, hfirst⟩ := exists_firstFault hload
      exact absurd hfirst.fault (hnone k cause)

theorem loadScore_eq_error_iff {e : Error} : loadScore b samples? p = .error e ↔
    ∃ k cause, e = .load cause ∧ FirstFault b samples? p k cause := by
  constructor
  · exact exists_firstFault
  · rintro ⟨k, cause, rfl, hfirst⟩
    cases hload : loadScore b samples? p with
    | ok s => exact absurd hfirst.fault (exists_loadScore_iff.1 ⟨s, hload⟩ k cause)
    | error e =>
      obtain ⟨k', cause', rfl, hfirst'⟩ := exists_firstFault hload
      rw [hfirst.unique hfirst']

/-! ## What is cut out -/

/-- All that is read and cut out of a file that has a header, and of its music
    data, is there. -/
structure Probe.Sliced (p : Probe) (b : ByteArray) : Prop where
  /-- The lines of the comment, the song table and the places of the tables. -/
  comment : ∀ i < 6, (slice? b (p.start + 16 + i * 40) 40).isSome
  songs : ∀ i < 32, ∀ o ∈ [songStartOffset, 0x140, 0x180],
    (u16? b (p.start + o + i * 2)).isSome
  bases : ∀ i < 3, (u32? b (p.start + tableOffset + 4 * i)).isSome
  /-- The music data as far as the file goes, and its place among the rest. -/
  body : ∃ body, slice? b (p.start + headerSize)
      (min (p.musicSize b) (b.size - (p.start + headerSize))) = some body ∧
    slice? (p.music b) 0 body.size = some body
  /-- The ending, and the music data without it. -/
  ending : slice? (p.music b) (wholeWords (p.musicSize b)) 4 = some ⟨#[0xff, 0xff, 0xff, 0xff]⟩
  data : (slice? (p.music b) 0 (p.musicSize b)).isSome
  /-- The track steps in front of the first pattern. -/
  steps : ∀ o, p.FirstPattern b o → p.trackPlace b ≤ o.toNat →
    ∀ i < (o.toNat - p.trackPlace b) / 16, ∀ j < 8,
      (u16? (p.music b) (p.trackPlace b + i * 16 + j * 2)).isSome

theorem agree_music (p : Probe) (b : ByteArray) :
    Agree (p.music b) 0 (b.extract (p.start + headerSize)
      (p.start + headerSize + min (p.musicSize b) (b.size - (p.start + headerSize)))) 0
      (min (p.musicSize b) (b.size - (p.start + headerSize))) := by
  intro k hk
  rw [Nat.zero_add, Probe.music, u8?_musicData_of_lt (by omega), u8?_extract _ (by omega),
    u8?_of_lt (show p.start + headerSize + k < b.size by omega)]
  rfl

theorem sliced_of_header (h : p.start + headerSize ≤ b.size) : p.Sliced b where
  comment i hi := by
    have hheader : headerSize = 512 := rfl
    have hline := slice?_of_header h (o := 16 + i * 40) (n := 40) (by omega)
    rw [← Nat.add_assoc] at hline
    exact Option.isSome_iff_exists.2 hline
  songs i hi o ho := by
    have hle : o ≤ 0x180 := by
      revert ho; revert o; decide
    have hheader : headerSize = 512 := rfl
    have hsong := u16?_of_header h (o := o + i * 2) (by omega)
    rw [← Nat.add_assoc] at hsong
    exact Option.isSome_iff_exists.2 hsong
  bases i hi := by
    have hheader : headerSize = 512 := rfl
    have htable : tableOffset = 464 := rfl
    have hbase := u32?_of_header h (o := tableOffset + 4 * i) (by omega)
    rw [← Nat.add_assoc] at hbase
    exact Option.isSome_iff_exists.2 hbase
  body := by
    have hsize : (b.extract (p.start + headerSize) (p.start + headerSize +
        min (p.musicSize b) (b.size - (p.start + headerSize)))).size =
          min (p.musicSize b) (b.size - (p.start + headerSize)) := by
      rw [ByteArray.size_extract]
      omega
    refine ⟨_, if_pos (by omega), Agree.slice?_eq_some ?_ ?_⟩
    · rw [hsize]
      exact agree_music p b
    · rw [hsize, Probe.music, size_musicData]
      omega
  ending := by
    have hwhole : wholeWords (p.musicSize b) = (p.musicSize b + 3) / 4 * 4 := rfl
    refine Agree.slice?_eq_some (c := ⟨#[0xff, 0xff, 0xff, 0xff]⟩) (fun k hk => ?_) ?_
    · have hk : k < 4 := hk
      rw [Probe.music, u8?_musicData_ending hk]
      interval_cases k <;> rfl
    · rw [Probe.music, size_musicData]
      exact Nat.le_refl _
  data := by
    rw [slice?, if_pos (by rw [Probe.music, size_musicData]; omega)]
    rfl
  steps o ho hle i hi j hj := by
    have hfits := ho.fits hle
    refine Option.isSome_iff_exists.2 (Option.ne_none_iff_exists'.1 fun hnone => ?_)
    have := u16?_eq_none_iff.1 hnone
    omega

/-! ## Tunes -/

theorem load_eq_of_probe (h : probe b = .ok p) (samples? : Option ByteArray) :
    load b samples? = (loadScore b samples? p).map fun score =>
      ⟨p.format, p.description, "Chris Huelsbeck", score⟩ := by
  simp only [load, h, bind, Except.bind, pure, Except.pure]
  cases loadScore b samples? p <;> rfl

/-- A file whose kind is known is refused if, and only if, it has a fault, and
    the first one is reported.  So no other read fails, the track steps never
    run past the music data, and all that is cut out is there. -/
theorem load_fails_iff (h : probe b = .ok p) (samples? : Option ByteArray) :
    (∀ e, load b samples? = .error e ↔
      ∃ k cause, e = .load cause ∧ FirstFault b samples? p k cause) ∧
    ((∃ e, load b samples? = .error e) ↔ ∃ k cause, Fault b samples? p k cause) ∧
    load b samples? ≠ .error (.load .shortRead) ∧
    load b samples? ≠ .error (.load .stepsBeyondMusic) ∧
    (p.start + headerSize ≤ b.size → p.Sliced b) := by
  have hiff : ∀ e, load b samples? = .error e ↔
      ∃ k cause, e = .load cause ∧ FirstFault b samples? p k cause := by
    intro e
    rw [← loadScore_eq_error_iff, load_eq_of_probe h]
    cases loadScore b samples? p with
    | ok s => exact iff_of_false (by rintro ⟨⟩) (by rintro ⟨⟩)
    | error e' => exact ⟨fun he => by cases he; rfl, fun he => by cases he; rfl⟩
  refine ⟨hiff, ⟨?_, ?_⟩, fun he => ?_, fun he => ?_, sliced_of_header⟩
  · rintro ⟨e, he⟩
    obtain ⟨k, cause, -, hfirst⟩ := (hiff e).1 he
    exact ⟨k, cause, hfirst.fault⟩
  · rintro ⟨k, cause, hfault⟩
    cases hload : load b samples? with
    | error e => exact ⟨e, rfl⟩
    | ok tune =>
      obtain ⟨q, hq, hread, -⟩ := load_eq_ok_iff.1 hload
      cases h.symm.trans hq
      exact absurd hfault (hread.clear (k + 1) k (Nat.lt_succ_self k) cause)
  · obtain ⟨k, cause, hcause, hfirst⟩ := (hiff _).1 he
    cases hcause
    cases hfirst.fault
  · obtain ⟨k, cause, hcause, hfirst⟩ := (hiff _).1 he
    cases hcause
    cases hfirst.fault

/-- A tune of one position, at which nothing is played. -/
def emptyTune : ByteArray := songTune 0 1 [[0]] [[0xf0000000]] []

/-- It is accepted with samples, and refused without. -/
theorem load_fails_emptyTune : ∃ p, probe emptyTune = .ok p ∧
    (∀ k cause, ¬ Fault emptyTune (some ⟨#[]⟩) p k cause) ∧
    FirstFault emptyTune none p 7 .missingSamples ∧
    load emptyTune none = .error (.load .missingSamples) ∧ p.Sliced emptyTune := by
  have haccepted : (load emptyTune (some ⟨#[]⟩)).toOption.isSome = true := by decide +kernel
  have h : (probe emptyTune).toOption.map (fun p =>
      (p.container?.isNone, decide (p.start + headerSize ≤ emptyTune.size))) =
        some (true, true) := by decide +kernel
  obtain ⟨p, hp, h⟩ := Option.map_eq_some_iff.1 h
  have hp := Player.eq_ok_of_toOption hp
  simp only [Prod.mk.injEq, Option.isNone_iff_eq_none, decide_eq_true_eq] at h
  obtain ⟨hcontainer, hheader⟩ := h
  have hclear : ∀ k cause, ¬ Fault emptyTune (some ⟨#[]⟩) p k cause := by
    intro k cause hfault
    obtain ⟨e, he⟩ := (load_fails_iff hp (some ⟨#[]⟩)).2.1.2 ⟨k, cause, hfault⟩
    rw [he] at haccepted
    cases haccepted
  have hfirst : FirstFault emptyTune none p 7 .missingSamples :=
    ⟨.missingSamples hcontainer rfl, fun k hk cause hfault =>
      hclear k cause (hfault.of_lt hk (some ⟨#[]⟩))⟩
  obtain ⟨herror, -, -, -, hsliced⟩ := load_fails_iff hp none
  exact ⟨p, hp, hclear, hfirst, (herror _).2 ⟨7, _, rfl, hfirst⟩, hsliced hheader⟩

end PaulaReplay
