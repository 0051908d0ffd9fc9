/-
  The sound of a tick: its sizes, and what it is made of.

  * `Mix.WellSized`: every output channel has as many frames as the tick;
  * `Mix.channel_ofVoices_of_le`: output channels that are not heard are
    silent, and there are seven;
  * `Mixer.play_eq`: a mixer that played before makes the sound that a new one
    makes, and leaves its buffers silent.
-/
import Mathlib.Tactic.Common
import PaulaReplay.Proofs.Rendering
import PaulaReplay.Sound.Mixer

namespace PaulaReplay

namespace Mix

/-- Every output channel, heard or not, has a sample for each frame, and the
    stereo sound two. -/
structure WellSized (m : Mix) : Prop where
  channels : ∀ samples ∈ m.channels, samples.size = m.size
  stereo : m.stereo.size = 2 * m.size

theorem wellSized_empty : empty.WellSized where
  channels samples h := by
    rw [empty, Vector.mem_replicate] at h
    rw [h.2]; rfl
  stereo := rfl

theorem size_channelOf (n : Nat) (r : Voice.Rendering) : (channelOf n r).size = n := by
  rw [channelOf, Array.size_map, r.size_over, Array.size_replicate]

theorem size_fold_push_push (left right : Nat → Int16) (out : Array Int16) : ∀ n : Nat,
    (n.fold (fun i _ out => (out.push (left i)).push (right i)) out).size = out.size + 2 * n
  | 0 => rfl
  | n + 1 => by
    rw [Nat.fold_succ, Array.size_push, Array.size_push, size_fold_push_push left right out n]
    omega

theorem size_downmix (multi : Bool) (n : Nat) (channels : Vector (Array Int16) 7)
    (out : Array Int16) : (downmix multi n channels out).size = out.size + 2 * n :=
  size_fold_push_push (fun i => clamp (sideSum multi channels .left i >>> (1 : Nat)))
    (fun i => clamp (sideSum multi channels .right i >>> (1 : Nat))) out n

/-- So the samples that `downmix` adds up are all there. -/
theorem wellSized_ofVoices (bank : Bank) (multi : Bool) (n : Nat) (voices : Octet Voice) :
    (ofVoices bank multi n voices).1.WellSized where
  channels samples h := by
    simp only [ofVoices, Vector.mem_ofFn] at h
    obtain ⟨i, rfl⟩ := h
    split
    · exact size_channelOf n _
    · exact Array.size_replicate
  stereo := (size_downmix multi n _ _).trans (Nat.zero_add _)

/-- No voice feeds an output channel that is not heard. -/
theorem source?_eq_none {multi : Bool} {c : Fin 7} (h : channelCount multi ≤ c.val) :
    source? multi c = none := by
  revert h; revert c multi; decide

theorem channel_eq {m : Mix} {c : Nat} (h : c < 7) : m.channel c = m.channels[c] := by
  rw [channel, Vector.getElem?_eq_getElem h]; rfl

theorem channel_of_le {m : Mix} {c : Nat} (h : 7 ≤ c) : m.channel c = #[] := by
  rw [channel, Vector.getElem?_eq_none h]; rfl

/-- Output channels that are not heard are silent. -/
theorem channel_ofVoices_of_le (bank : Bank) {multi : Bool} (n : Nat) (voices : Octet Voice)
    {c : Nat} (hc : channelCount multi ≤ c) (h : c < 7) :
    (ofVoices bank multi n voices).1.channel c = Array.replicate n 0 := by
  have hs : source? multi ⟨c, h⟩ = none := source?_eq_none hc
  rw [channel_eq h]
  simp only [ofVoices, Vector.getElem_ofFn, hs]

end Mix

/-! ## The buffers of a mixer -/

theorem resize_take_zero {α : Type} (n : Nat) (a : α) (buffer : Array α) :
    resize n a (buffer.take 0) = Array.replicate n a := by
  simp [resize]

namespace Mixer

theorem wipe_eq (n : Nat) (frames : Vector (Array Int) 7) :
    wipe n frames = Vector.replicate 7 (Array.replicate n 0) := by
  ext1 i hi
  simp only [wipe, Vector.getElem_map, Vector.getElem_replicate, resize_take_zero]

/-- All frames are played over silence. -/
theorem getElem_overwrite_wipe (multi : Bool) (rs : Octet Voice.Rendering) (n : Nat)
    (frames : Vector (Array Int) 7) (i : Nat) (hi : i < 7) :
    (overwrite multi rs (wipe n frames))[i] = match source? multi ⟨i, hi⟩ with
      | some v => rs[v].over (Array.replicate n 0)
      | none => Array.replicate n 0 := by
  have hwipe : (wipe n frames)[i] = Array.replicate n 0 := by
    rw [wipe_eq, Vector.getElem_replicate]
  have hplay : (overwrite multi rs (wipe n frames))[i] = match source? multi ⟨i, hi⟩ with
      | some v => rs[v].over (wipe n frames)[i]
      | none => (wipe n frames)[i] := Vector.getElem_ofFn hi
  rwa [hwipe] at hplay

theorem size_overwrite_wipe (multi : Bool) (rs : Octet Voice.Rendering) (n : Nat)
    (frames : Vector (Array Int) 7) (i : Nat) (hi : i < 7) :
    (overwrite multi rs (wipe n frames))[i].size = n := by
  rw [getElem_overwrite_wipe]
  split
  · rw [Voice.Rendering.size_over, Array.size_replicate]
  · exact Array.size_replicate

/-- The output channels hold nothing of what was in them. -/
theorem cut_overwrite_wipe (multi : Bool) (rs : Octet Voice.Rendering) (n : Nat)
    (frames : Vector (Array Int) 7) (channels : Vector (Array Int16) 7) :
    cut (overwrite multi rs (wipe n frames)) channels = Vector.ofFn fun c =>
      match source? multi c with
      | some v => Mix.channelOf n rs[v]
      | none => Array.replicate n 0 := by
  ext1 i hi
  simp only [cut, Vector.getElem_ofFn, Fin.getElem_fin, getElem_overwrite_wipe]
  cases source? multi ⟨i, hi⟩ <;> simp [Mix.channelOf]

/-- The frames are silent again once they are cut. -/
theorem silence_overwrite_wipe (multi : Bool) (rs : Octet Voice.Rendering) (n : Nat)
    (frames : Vector (Array Int) 7) :
    ((overwrite multi rs (wipe n frames)).map fun buffer => buffer.map fun _ => (0 : Int)) =
      Vector.replicate 7 (Array.replicate n 0) := by
  ext1 i hi
  rw [Vector.getElem_map, Vector.getElem_replicate, Array.map_const', size_overwrite_wipe]

/-- A mixer plays a tick as a new one does, whatever is in its buffers, and
    leaves them silent. -/
theorem play_eq (bank : Bank) (multi : Bool) (n : Nat) (voices : Octet Voice) (m : Mixer) :
    m.play bank multi n voices =
      (⟨(Mix.ofVoices bank multi n voices).1, Vector.replicate 7 (Array.replicate n 0)⟩,
        (Mix.ofVoices bank multi n voices).2) := by
  have hempty : m.mix.stereo.take 0 = Array.emptyWithCapacity (2 * n) := by simp
  simp only [play, silence_overwrite_wipe, cut_overwrite_wipe, hempty]
  rfl

/-- So the last tick does not matter for the next one. -/
theorem play_congr (bank : Bank) (multi : Bool) (n : Nat) (voices : Octet Voice) (m m' : Mixer) :
    m.play bank multi n voices = m'.play bank multi n voices := by
  rw [play_eq, play_eq]

theorem wellSized_play (bank : Bank) (multi : Bool) (n : Nat) (voices : Octet Voice) (m : Mixer) :
    (m.play bank multi n voices).1.mix.WellSized := by
  rw [play_eq]
  exact Mix.wellSized_ofVoices bank multi n voices

end Mixer

end PaulaReplay
