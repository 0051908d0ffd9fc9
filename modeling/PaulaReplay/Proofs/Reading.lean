/-
  Reading: what the loader has read when it accepts a tune.

  * `Score.IsReadFrom`: a score, part by part, as it stands in a file, with
    what the loader has looked at before it goes on;
  * `loadScore_eq_ok_iff`: the loader accepts a file if, and only if, there is
    such a score;
  * `load_eq_ok_iff`: a tune is such a score with the kind of its file.
-/
import PaulaReplay.Tune.Loader

namespace PaulaReplay

open Bytes

theorem exists_of_bind_eq_ok {ε α β : Type} {x : Except ε α} {f : α → Except ε β} {b : β}
    (h : x >>= f = .ok b) : ∃ a, x = .ok a ∧ f a = .ok b := by
  cases x with
  | ok a => exact ⟨a, rfl, h⟩
  | error e => cases h

/-- Where the music of a file begins. -/
def Probe.start (p : Probe) : Nat := (p.container?.map fun c => c.headerSize.toNat).getD 0

/-- The size of the music data of a file: what a container says it is, or the
    rest of a music file. -/
def Probe.musicSize (p : Probe) (b : ByteArray) : Nat :=
  match p.container? with
  | some c => c.musicSize.toNat
  | none => b.size - (p.start + headerSize)

/-- Where a table begins, by the word at `o` of a file. -/
def tableBaseAt (b : ByteArray) (o usual : Nat) : Except Error Nat := do
  tableBase (← orShortRead (u32? b o)) usual

/-- A score as it stands in a file. -/
structure Score.IsReadFrom (s : Score) (b : ByteArray) (samples? : Option ByteArray)
    (p : Probe) : Prop where
  header : p.start + headerSize ≤ b.size
  comment : commentLines b p.start = .ok s.comment
  songs : songTable b p.start = .ok s.songs
  trackStart : tableBaseAt b (p.start + tableOffset) 0x600 = .ok s.trackStart
  patternStart : tableBaseAt b (p.start + tableOffset + 4) 0x200 = .ok s.patternStart
  macroStart : tableBaseAt b (p.start + tableOffset + 8) 0x400 = .ok s.macroStart
  musicSize : s.musicSize = p.musicSize b
  musicSize_le : s.musicSize ≤ maxMusicSize
  music : s.music = musicData b (p.start + headerSize) s.musicSize
  macros : s.macros = pointerTable s.music s.musicSize s.macroStart maxPointers
  patterns : s.patterns =
    pointerTable s.music s.musicSize s.patternStart (patternLimit s.patternStart s.macroStart)
  trackSteps : ∃ first, s.patterns[0]? = some first ∧ s.trackStart ≤ first.toNat ∧
    PaulaReplay.trackSteps s.music s.trackStart ((first.toNat - s.trackStart) / 16) =
      .ok s.trackSteps
  bank : sampleBank b p.container? samples? = .ok s.bank
  dialect : s.dialect = Dialect.ofMusic (s.music.extract 0 s.musicSize)

variable {b : ByteArray} {samples? : Option ByteArray} {p : Probe} {s : Score}

theorem Score.isReadFrom_of_loadScore (h : loadScore b samples? p = .ok s) :
    s.IsReadFrom b samples? p := by
  unfold loadScore at h
  extract_lets start musicSize data rest at h
  split at h
  · cases h
  next hheader =>
  unfold rest at h
  obtain ⟨comment, hcomment, h⟩ := exists_of_bind_eq_ok h
  obtain ⟨songs, hsongs, h⟩ := exists_of_bind_eq_ok h
  obtain ⟨_, hv, h⟩ := exists_of_bind_eq_ok h
  obtain ⟨trackStart, htrack, h⟩ := exists_of_bind_eq_ok h
  obtain ⟨_, hw, h⟩ := exists_of_bind_eq_ok h
  obtain ⟨patternStart, hpattern, h⟩ := exists_of_bind_eq_ok h
  obtain ⟨_, hx, h⟩ := exists_of_bind_eq_ok h
  obtain ⟨macroStart, hprogram, h⟩ := exists_of_bind_eq_ok h
  extract_lets macros patterns rest₂ at h
  split at h
  · cases h
  next hsize =>
  unfold rest₂ at h
  split at h
  · cases h
  next first hfirst =>
  extract_lets rest₃ at h
  split at h
  · cases h
  next hle =>
  unfold rest₃ at h
  obtain ⟨steps, hsteps, h⟩ := exists_of_bind_eq_ok h
  obtain ⟨bank, hbank, h⟩ := exists_of_bind_eq_ok h
  rw [← Except.ok.inj h]
  exact {
    header := Nat.not_lt.1 hheader
    comment := hcomment
    songs := hsongs
    trackStart := by rw [tableBaseAt, Probe.start, hv]; exact htrack
    patternStart := by rw [tableBaseAt, Probe.start, hw]; exact hpattern
    macroStart := by rw [tableBaseAt, Probe.start, hx]; exact hprogram
    musicSize := rfl
    musicSize_le := Nat.not_lt.1 hsize
    music := rfl
    macros := rfl
    patterns := rfl
    trackSteps := ⟨first, hfirst, Nat.not_lt.1 hle, hsteps⟩
    bank := hbank
    dialect := rfl }

theorem Score.IsReadFrom.loadScore_eq (h : s.IsReadFrom b samples? p) :
    loadScore b samples? p = .ok s := by
  obtain ⟨hheader, hcomment, hsongs, htrack, hpattern, hprogram, hsize, hle, hmusic, hmacros,
    hpatterns, ⟨first, hfirst, hge, hsteps⟩, hbank, hdialect⟩ := h
  obtain ⟨v, hv, htrack⟩ := exists_of_bind_eq_ok htrack
  obtain ⟨w, hw, hpattern⟩ := exists_of_bind_eq_ok hpattern
  obtain ⟨x, hx, hprogram⟩ := exists_of_bind_eq_ok hprogram
  unfold loadScore
  extract_lets start musicSize data rest
  have hstart : start = p.start := rfl
  have hmusicSize : musicSize = s.musicSize := hsize.symm
  clear_value start musicSize
  subst hstart hmusicSize
  simp only [rest, data, bind, Except.bind, pure, Except.pure, if_neg (Nat.not_lt.2 hheader),
    hcomment, hsongs, hv, hw, hx, htrack, hpattern, hprogram, ← hmusic, ← hmacros, ← hpatterns,
    ← hdialect, hfirst, if_neg (Nat.not_lt.2 hle), if_neg (Nat.not_lt.2 hge), hsteps, hbank]

/-- A file is accepted if, and only if, a score stands in it. -/
theorem loadScore_eq_ok_iff : loadScore b samples? p = .ok s ↔ s.IsReadFrom b samples? p :=
  ⟨Score.isReadFrom_of_loadScore, Score.IsReadFrom.loadScore_eq⟩

theorem load_eq_ok_iff {tune : Tune} : load b samples? = .ok tune ↔
    ∃ p, probe b = .ok p ∧ tune.score.IsReadFrom b samples? p ∧
      tune = ⟨p.format, p.description, "Chris Huelsbeck", tune.score⟩ := by
  constructor
  · intro h
    obtain ⟨p, hp, h⟩ := exists_of_bind_eq_ok h
    obtain ⟨s, hs, h⟩ := exists_of_bind_eq_ok h
    rw [← Except.ok.inj h]
    exact ⟨p, hp, loadScore_eq_ok_iff.1 hs, rfl⟩
  · rintro ⟨p, hp, hs, htune⟩
    rw [htune]
    simp only [load, hp, loadScore_eq_ok_iff.2 hs, bind, Except.bind, pure, Except.pure]

end PaulaReplay
