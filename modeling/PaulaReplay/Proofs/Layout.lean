/-
  Layout: where the parts of a tune that is accepted lie.

  * `Score.LaidOut`: patterns and macros begin on whole words of the music
    data, which have offsets of 16 bits, and the track steps fit in there too;
  * `laidOut_of_load`: the loader makes sure of it;
  * `songTune` writes a tune of some track steps, patterns and macros.
-/
import PaulaReplay.Proofs.Arithmetic
import PaulaReplay.Proofs.Pieces

namespace PaulaReplay

open Player (numberBytes wordBytes)

/-- A pattern or a macro begins on a whole word of the music data, at an offset
    of 16 bits. -/
def OnWord (o : UInt32) : Prop := o.toNat % 4 = 0 ∧ o.toNat ≤ maxMusicSize

/-- Where the parts of a score lie. -/
structure Score.LaidOut (score : Score) : Prop where
  macros : ∀ o ∈ score.macros, OnWord o
  patterns : ∀ o ∈ score.patterns, OnWord o
  music : score.music.size ≤ maxMusicSize + 4
  trackSteps : score.trackSteps.size * 16 ≤ maxMusicSize

/-! ## Tables -/

theorem pointer?_eq_some_iff {size : Nat} {v o : UInt32} : pointer? size v = some o ↔
    headerSize ≤ v.toNat ∧ o.toNat = v.toNat - headerSize ∧ o.toNat % 4 = 0 ∧
      o.toNat ≤ size := by
  have hheader : (0x200 : UInt32).toNat = headerSize := rfl
  have hsub : headerSize ≤ v.toNat → (v - 0x200).toNat = v.toNat - headerSize := fun hge => by
    rw [UInt32.toNat_sub_of_le _ _ (UInt32.le_iff_toNat_le.2 (hheader.trans_le hge)), hheader]
  unfold pointer?
  simp only
  constructor
  · intro h
    split at h
    · next hv =>
      obtain ⟨hge, hmod, hle⟩ := hv
      rw [← Option.some.inj h, hsub hge]
      exact ⟨hge, rfl, hmod, hle⟩
    · cases h
  · rintro ⟨hge, ho, hmod, hle⟩
    rw [ho] at hmod hle
    rw [if_pos ⟨hge, hmod, hle⟩]
    exact congrArg some (UInt32.toNat_inj.1 ((hsub hge).trans ho.symm))

theorem onWord_of_mem_pointerList {music : ByteArray} {size : Nat} (hsize : size ≤ maxMusicSize)
    {o : UInt32} : ∀ (n base : Nat), o ∈ pointerList music size n base → OnWord o
  | 0, _, h => by cases h
  | n + 1, base, h => by
    rw [pointerList] at h
    split at h
    · next p hp =>
      rcases List.mem_cons.1 h with rfl | h
      · obtain ⟨v, -, hv⟩ := Option.bind_eq_some_iff.1 hp
        obtain ⟨-, -, hmod, hle⟩ := pointer?_eq_some_iff.1 hv
        exact ⟨hmod, hle.trans hsize⟩
      · exact onWord_of_mem_pointerList hsize n _ h
    · cases h

theorem onWord_of_mem_pointerTable {music : ByteArray} {size base limit : Nat}
    (hsize : size ≤ maxMusicSize) {o : UInt32} (h : o ∈ pointerTable music size base limit) :
    OnWord o :=
  onWord_of_mem_pointerList hsize limit base (List.mem_toArray.1 h)

/-- The music data is filled up to whole words, of which one more is its
    ending. -/
theorem size_musicData (b : ByteArray) (start size : Nat) :
    (musicData b start size).size = (size + 3) / 4 * 4 + 4 := by
  have hword : (⟨#[0xff, 0xff, 0xff, 0xff]⟩ : ByteArray).size = 4 := rfl
  unfold musicData
  simp only [ByteArray.size_append, ByteArray.size_extract, hword, Bytes.size_replicate]
  omega

theorem length_of_mapM {ε α β : Type} {f : α → Except ε β} : ∀ {xs : List α} {ys : List β},
    xs.mapM f = .ok ys → ys.length = xs.length
  | [], _, h => by cases h; rfl
  | x :: xs, ys, h => by
    rw [List.mapM_cons] at h
    obtain ⟨y, -, h⟩ := exists_of_bind_eq_ok h
    obtain ⟨zs, hzs, h⟩ := exists_of_bind_eq_ok h
    cases h
    rw [List.length_cons, List.length_cons, length_of_mapM hzs]

theorem size_trackSteps {music : ByteArray} {base n : Nat} {steps : Array TrackStep}
    (h : trackSteps music base n = .ok steps) : steps.size = n := by
  rw [trackSteps, Array.mapM_eq_mapM_toList] at h
  obtain ⟨ys, hys, h⟩ := exists_of_bind_eq_ok h
  cases h
  rw [List.size_toArray, length_of_mapM hys, Array.length_toList, Array.size_range]

/-! ## Scores -/

/-- A tune that is accepted is laid out. -/
theorem laidOut_of_load {music : ByteArray} {samples : Option ByteArray} {tune : Tune}
    (h : load music samples = .ok tune) : tune.score.LaidOut := by
  obtain ⟨p, -, hread, -⟩ := load_eq_ok_iff.1 h
  have hsize := hread.musicSize_le
  have hpatterns : ∀ o ∈ tune.score.patterns, OnWord o := fun o ho => by
    rw [hread.patterns] at ho
    exact onWord_of_mem_pointerTable hsize ho
  refine ⟨fun o ho => ?_, hpatterns, ?_, ?_⟩
  · rw [hread.macros] at ho
    exact onWord_of_mem_pointerTable hsize ho
  · have hmax : maxMusicSize = 65532 := rfl
    rw [hread.music, size_musicData]
    omega
  -- the track steps end where the first pattern begins
  · obtain ⟨first, hfirst, -, hsteps⟩ := hread.trackSteps
    have hle : first.toNat ≤ maxMusicSize := (hpatterns first (Array.mem_of_getElem? hfirst)).2
    rw [size_trackSteps hsteps]
    omega

/-! ## Tunes -/

/-- Where programs begin that follow one another from an offset on. -/
def startsFrom : UInt32 → List (List UInt32) → List UInt32
  | _, [] => []
  | o, ws :: rest => o :: startsFrom (o + 4 * UInt32.ofNat ws.length) rest

/-- A tune of one sub-song, from the first position to `last`.  The fields of a
    track step that are not given are zero. -/
def songTune (last tempo : UInt16) (steps : List (List UInt16))
    (patterns programs : List (List UInt32)) : ByteArray :=
  let zeros (n : Nat) : List UInt8 := List.replicate n 0
  let step (fields : List UInt16) := numberBytes (fields ++ List.replicate (8 - fields.length) 0)
  let patternStart := 0x200 + 16 * UInt32.ofNat steps.length
  let programStart := patternStart + 4 * UInt32.ofNat patterns.flatten.length
  let patternTable := programStart + 4 * UInt32.ofNat programs.flatten.length
  let macroTable := patternTable + 4 * UInt32.ofNat patterns.length
  ⟨([0x54, 0x46, 0x4d, 0x58] ++ zeros 0x13c ++ numberBytes [last] ++ zeros 0x3e ++
    numberBytes [tempo] ++ zeros 0x4e ++ wordBytes [0x200, patternTable, macroTable] ++
    zeros 0x24 ++ steps.flatMap step ++ wordBytes (patterns.flatten ++ programs.flatten ++
      startsFrom patternStart patterns ++ startsFrom programStart programs)).toArray⟩

end PaulaReplay
