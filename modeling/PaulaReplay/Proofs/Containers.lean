/-
  Containers: a music file and its samples in one file.

  * `Container.Heads`: the header of a container for a music file and a sample
    file;
  * `Walk.Within`, `hasTimeShare_append`: what stands behind a music file does
    not matter to its kind if no walk leaves it;
  * `spill`, `loadScore_container`: a container is read like the music file with
    the first samples behind it;
  * `Score.EndsInside`, `container_agrees`: the tables are the same if they end
    inside the music file.
-/
import PaulaReplay.Proofs.Store

namespace PaulaReplay

open Bytes

variable {a b header music samples : ByteArray} {i j : Nat}

/-! ## The header of the music -/

theorem mapM_congr {ε α β : Type} {f g : α → Except ε β} {xs : List α}
    (h : ∀ x ∈ xs, f x = g x) : xs.mapM f = xs.mapM g := by
  induction xs with
  | nil => rfl
  | cons x xs ih =>
    rw [List.mapM_cons, List.mapM_cons, h x List.mem_cons_self,
      ih fun y hy => h y (List.mem_cons_of_mem x hy)]

theorem commentLines_congr (h : Agree a i b j headerSize) :
    commentLines a i = commentLines b j := by
  refine mapM_congr fun k hk => ?_
  have hk := List.mem_range.1 hk
  have hslice : slice? a (i + (16 + k * 40)) 40 = slice? b (j + (16 + k * 40)) 40 :=
    h.slice? (by decide) (by rw [headerSize]; omega)
  rw [text?, text?, Nat.add_assoc, hslice, Nat.add_assoc]

theorem songTable_congr (h : Agree a i b j headerSize) : songTable a i = songTable b j := by
  have hentry : songEntry a i = songEntry b j := by
    funext k
    have hk := k.isLt
    have hread : ∀ o, o + 2 ≤ headerSize → u16? a (i + o) = u16? b (j + o) :=
      fun o ho => h.u16? ho
    have hfirst := hread (songStartOffset + k.val * 2) (by rw [headerSize, songStartOffset]; omega)
    have hlast := hread (0x140 + k.val * 2) (by rw [headerSize]; omega)
    have htempo := hread (0x180 + k.val * 2) (by rw [headerSize]; omega)
    rw [← Nat.add_assoc, ← Nat.add_assoc] at hfirst hlast htempo
    rw [songEntry, songEntry, hfirst, hlast, htempo]
  rw [songTable, songTable, hentry]

theorem tableBaseAt_congr (h : Agree a i b j headerSize) {o usual : Nat}
    (ho : o + 4 ≤ headerSize) : tableBaseAt a (i + o) usual = tableBaseAt b (j + o) usual := by
  rw [tableBaseAt, tableBaseAt, h.u32? ho]

/-! ## The kind of music -/

/-- No walk leaves the first `n` track steps at `base`: the sub-songs of the
    music at `start` begin there, and a step that goes on from there comes to
    one of them. -/
structure Walk.Within (b : ByteArray) (start base n : Nat) : Prop where
  fits : base + n * 16 ≤ b.size
  starts : ∀ k < 31, ∀ position, u16? b (start + songStartOffset + k * 2) = some position →
    position ≠ 0x1ff → position.toNat < n
  goesOn : ∀ w : Walk, w.position < n → (w.step b base).2 = true → (w.step b base).1.position < n

namespace Walk

variable {base base' m n start : Nat}

theorem step_congr (w : Walk)
    (h : Agree a (base + w.position * 16) b (base' + w.position * 16) 8) :
    w.step a base = w.step b base' := by
  have h0 : u16? a (base + w.position * 16) = u16? b (base' + w.position * 16) :=
    h.u16? (k := 0) (by decide)
  rw [step, step, h0, h.u16? (k := 2) (by decide), h.u16? (k := 4) (by decide),
    h.u16? (k := 6) (by decide)]

theorem step_of_no_command {w : Walk} (h : u16? b (base + w.position * 16) ≠ some commandMark) :
    w.step b base = (w, false) := if_pos h

theorem run_congr (h : ∀ n, Agree a base b base' n) : ∀ (m : Nat) (w : Walk),
    run a base m w = run b base' m w
  | 0, _ => rfl
  | m + 1, w => by
    rw [run, run, step_congr w ((h _).skip (Nat.le_refl (w.position * 16 + 8)))]
    split
    · exact run_congr h m _
    · rfl

theorem run_append (h : Within b start base n) (c : ByteArray) : ∀ (m : Nat) (w : Walk),
    w.position < n → run (b ++ c) base m w = run b base m w
  | 0, _, _ => rfl
  | m + 1, w, hw => by
    have hfits := h.fits
    have hstep : w.step (b ++ c) base = w.step b base := step_congr w fun k hk => by
      rw [u8?_append_left c (by omega)]
    have hon := h.goesOn w hw
    rw [run, run, hstep]
    split
    · next w' hw' =>
      rw [hw'] at hon
      exact run_append h c m w' (hon rfl)
    · rfl

end Walk

section Kind

variable {base base' n start : Nat}

theorem anyTimeShare_congr (h : ∀ n, Agree a i b j n) (hbase : ∀ n, Agree a base b base' n) :
    ∀ (m k : Nat) (jumps : Int),
      anyTimeShare a i base m k jumps = anyTimeShare b j base' m k jumps
  | 0, _, _ => rfl
  | m + 1, k, jumps => by
    have hstart : u16? a (i + (songStartOffset + k * 2)) = u16? b (j + (songStartOffset + k * 2)) :=
      (h _).u16? (Nat.le_refl _)
    rw [anyTimeShare, anyTimeShare, Nat.add_assoc, Nat.add_assoc, hstart]
    split
    · rfl
    · simp only [Walk.run_congr hbase, anyTimeShare_congr h hbase m]

theorem hasTimeShare_congr (h : ∀ n, Agree a i b j n) : hasTimeShare a i = hasTimeShare b j := by
  rw [hasTimeShare, hasTimeShare, (h _).u32? (Nat.le_refl _)]
  split
  · rfl
  · exact anyTimeShare_congr h (fun n => (h _).skip (Nat.le_refl (_ + n))) _ _ _

theorem anyTimeShare_append (h : Walk.Within b start base n) (hhead : start + headerSize ≤ b.size)
    (c : ByteArray) : ∀ (m k : Nat) (jumps : Int), k + m ≤ 31 →
      anyTimeShare (b ++ c) start base m k jumps = anyTimeShare b start base m k jumps
  | 0, _, _, _ => rfl
  | m + 1, k, jumps, hk => by
    have hstart : u16? (b ++ c) (start + songStartOffset + k * 2) =
        u16? b (start + songStartOffset + k * 2) := by
      have := (agree_append_left b c).u16? (k := start + songStartOffset + k * 2) (by
        rw [headerSize] at hhead
        rw [songStartOffset]
        omega)
      rwa [Nat.zero_add] at this
    rw [anyTimeShare, anyTimeShare, hstart]
    split
    · rfl
    · next position hposition =>
      split_ifs with hlast
      · rfl
      · rw [Walk.run_append h c _ _ (h.starts k (by omega) position hposition hlast)]
        simp only [anyTimeShare_append h hhead c m (k + 1) _ (by omega)]

/-- What stands behind the music does not matter to whether a walk switches the
    time share on. -/
theorem hasTimeShare_append {trackStart : Nat}
    (hbase : tableBaseAt b tableOffset 0x600 = .ok trackStart) (hhead : headerSize ≤ b.size)
    (h : Walk.Within b 0 (headerSize + trackStart) n) (c : ByteArray) :
    hasTimeShare (b ++ c) 0 = hasTimeShare b 0 := by
  have hoffset : u32? (b ++ c) (0 + tableOffset) = u32? b (0 + tableOffset) :=
    (agree_append_left b c).u32? (Nat.le_trans (by decide) hhead)
  obtain ⟨v, hv, hbase⟩ := exists_of_bind_eq_ok hbase
  have hread : u32? b (0 + tableOffset) = some v := by
    rw [Nat.zero_add]
    cases hu : u32? b tableOffset with
    | none => rw [hu] at hv; cases hv
    | some u => rw [hu] at hv; exact congrArg some (Except.ok.inj hv)
  have hplace : (if v = 0 then 0x800 else v.toNat) = headerSize + trackStart := by
    unfold tableBase at hbase
    split_ifs at hbase ⊢ with hzero hlow
    · rw [← Except.ok.inj hbase]
      rfl
    · have := Except.ok.inj hbase
      omega
  rw [hasTimeShare, hasTimeShare, hoffset, hread]
  simp only [hplace, Nat.zero_add]
  exact anyTimeShare_append h (by omega) c 31 0 0 (Nat.le_refl _)

end Kind

theorem probeMusic_congr (h : Agree a i b j 9) (hshare : hasTimeShare a i = hasTimeShare b j) :
    probeMusic a i = probeMusic b j := by
  have h1 : u32? a i = u32? b j := h.u32? (k := 0) (by decide)
  rw [probeMusic, probeMusic, h1, h.u32? (k := 4) (by decide), h.u8? (k := 8) (by decide), hshare]

/-- The kind of music is told with what stands behind it, but is the same for
    the old kind, and where no walk leaves the music. -/
theorem probeMusic_append {f : Format} (h : probeMusic b 0 = .ok f) (hhead : headerSize ≤ b.size)
    (c : ByteArray) : ∃ f', probeMusic (b ++ c) 0 = .ok f' ∧
      (f = .early ∨ hasTimeShare (b ++ c) 0 = hasTimeShare b 0 → f' = f) := by
  have hmarks : Agree (b ++ c) 0 b 0 9 :=
    (agree_append_left b c).mono (Nat.le_trans (by decide) hhead)
  have h1 : u32? (b ++ c) 0 = u32? b 0 := hmarks.u32? (k := 0) (by decide)
  have h2 : u32? (b ++ c) (0 + 4) = u32? b (0 + 4) := hmarks.u32? (by decide)
  have h3 : u8? (b ++ c) (0 + 8) = u8? b (0 + 8) := hmarks.u8? (by decide)
  rw [probeMusic] at h
  obtain ⟨m1, hm1, h⟩ := exists_of_bind_eq_ok h
  obtain ⟨m2, hm2, h⟩ := exists_of_bind_eq_ok h
  obtain ⟨m3, hm3, h⟩ := exists_of_bind_eq_ok h
  rw [probeMusic, h1, h2, h3, hm1, hm2, hm3]
  simp only [bind, Except.bind, pure, Except.pure] at h ⊢
  split_ifs at h ⊢ with he hs hb hc hc
  · exact ⟨.early, rfl, fun _ => Except.ok.inj h⟩
  all_goals cases h
  · exact ⟨.sevenVoices, rfl, fun _ => rfl⟩
  · refine ⟨.sevenVoices, rfl, ?_⟩
    rintro (hearly | hshare)
    · cases hearly
    · exact absurd (hshare.symm.trans hb) hc
  · refine ⟨.professional, rfl, ?_⟩
    rintro (hearly | hshare)
    · cases hearly
    · exact absurd (hshare.trans hc) hb
  · exact ⟨.professional, rfl, fun _ => rfl⟩

/-! ## Containers -/

/-- The header of a container for a music file and a sample file, which leaves
    the kind to the music. -/
structure Container.Heads (c : Container) (header music samples : ByteArray) : Prop where
  read : container? header = .ok (some c)
  headerSize : c.headerSize.toNat = header.size
  kind : c.kind = 0
  musicSize : c.musicSize.toNat = music.size
  sampleSize : c.sampleSize.toNat = samples.size

/-- What the music data of a container has behind that of its music file, whose
    header counts in the size but not in the music data: the first samples, and
    zeros where there are fewer. -/
def spill (samples : ByteArray) : ByteArray :=
  samples.extract 0 headerSize ++ ⟨Array.replicate (headerSize - samples.size) 0⟩

theorem size_spill (samples : ByteArray) : (spill samples).size = headerSize := by
  rw [spill, ByteArray.size_append, ByteArray.size_extract, size_replicate]
  omega

theorem u8?_spill {k : Nat} (hk : k < headerSize) :
    u8? (spill samples) k = some ((u8? samples k).getD 0) := by
  have hsize : (samples.extract 0 headerSize).size = min headerSize samples.size := by
    rw [ByteArray.size_extract, Nat.sub_zero]
  rcases Nat.lt_or_ge k samples.size with hlt | hge
  · rw [spill, u8?_append_left _ (by omega), u8?_extract _ (by omega), Nat.zero_add,
      u8?_of_lt hlt]
    rfl
  · obtain ⟨l, hl⟩ := Nat.exists_eq_add_of_le
      (show (samples.extract 0 headerSize).size ≤ k by omega)
    rw [spill, u8?_of_le hge, hl, u8?_append_right, u8?_replicate _ (by omega)]
    rfl

theorem size_of_container? {c : Container} (h : container? header = .ok (some c)) :
    18 ≤ header.size := by
  unfold container? at h
  split_ifs at h
  · obtain ⟨_, -, h⟩ := exists_of_bind_eq_ok h
    obtain ⟨_, -, h⟩ := exists_of_bind_eq_ok h
    obtain ⟨_, -, h⟩ := exists_of_bind_eq_ok h
    obtain ⟨_, -, h⟩ := exists_of_bind_eq_ok h
    obtain ⟨_, hlast, -⟩ := exists_of_bind_eq_ok h
    by_contra hlt
    rw [u32?_eq_none_iff.2 (by omega)] at hlast
    cases hlast
  · cases h

theorem container?_congr (h : Agree a 0 b 0 18) : container? a = container? b := by
  have h0 : u32? a 0 = u32? b 0 := h.u32? (k := 0) (by decide)
  have h4 : u32? a (0 + 4) = u32? b (0 + 4) := h.u32? (by decide)
  have h8 : u8? a (0 + 8) = u8? b (0 + 8) := h.u8? (by decide)
  have h9 : u8? a (0 + 9) = u8? b (0 + 9) := h.u8? (by decide)
  have h10 : u32? a (0 + 10) = u32? b (0 + 10) := h.u32? (by decide)
  have h14 : u32? a (0 + 14) = u32? b (0 + 14) := h.u32? (by decide)
  rw [Nat.zero_add] at h4 h8 h9 h10 h14
  rw [container?, container?, isContainer, isContainer, h0, h4, h8, h9, h10, h14]

section Heads

variable {c : Container}

/-- The music of a container begins like the music file with the first samples
    behind it. -/
theorem agree_container (header music samples c : ByteArray) :
    Agree (header ++ (music ++ samples)) header.size (music ++ c) 0 music.size :=
  (agree_append_right header (music ++ samples) _).trans
    ((agree_append_left music samples).trans (agree_append_left music c).symm)

/-- Scores are the same if their headers, their music data and their samples
    are. -/
theorem loadScore_congr {s? t? : Option ByteArray} {p q : Probe}
    (ha : p.start + headerSize ≤ a.size) (hb : q.start + headerSize ≤ b.size)
    (hagree : Agree a p.start b q.start headerSize) (hsize : p.musicSize a = q.musicSize b)
    (hmusic : musicData a (p.start + headerSize) (q.musicSize b) =
      musicData b (q.start + headerSize) (q.musicSize b))
    (hbank : sampleBank a p.container? s? = sampleBank b q.container? t?) :
    loadScore a s? p = loadScore b t? q := by
  unfold loadScore
  extract_lets start musicSize data rest start' musicSize' data' rest'
  have hstart : start = p.start := rfl
  have hstart' : start' = q.start := rfl
  have hmusicSize : musicSize = q.musicSize b := hsize
  have hmusicSize' : musicSize' = q.musicSize b := rfl
  clear_value start start' musicSize musicSize'
  subst hstart hstart' hmusicSize hmusicSize'
  have hbase : ∀ o, o + 4 ≤ headerSize → u32? a (p.start + o) = u32? b (q.start + o) :=
    fun o ho => hagree.u32? ho
  rw [if_neg (Nat.not_lt.2 ha), if_neg (Nat.not_lt.2 hb)]
  simp only [rest, rest', data, data', commentLines_congr hagree, songTable_congr hagree, hmusic,
    hbank, Nat.add_assoc, hbase _ (show tableOffset + 4 ≤ headerSize by decide),
    hbase _ (show tableOffset + 4 + 4 ≤ headerSize by decide),
    hbase _ (show tableOffset + 8 + 4 ≤ headerSize by decide)]

/-- The score of a container is that of the music file with the first samples
    behind it. -/
theorem loadScore_container (h : c.Heads header music samples) (hhead : headerSize ≤ music.size)
    (f : Format) (other? : Option ByteArray) :
    loadScore (header ++ (music ++ samples)) other? ⟨f, some c⟩ =
      loadScore (music ++ spill samples) (some samples) ⟨f, none⟩ := by
  have hstart : Probe.start ⟨f, some c⟩ = header.size := h.headerSize
  have hstart' : Probe.start ⟨f, none⟩ = 0 := rfl
  have hsize : (header ++ (music ++ samples)).size = header.size + (music.size + samples.size) := by
    rw [ByteArray.size_append, ByteArray.size_append]
  have hsize' : (music ++ spill samples).size = music.size + headerSize := by
    rw [ByteArray.size_append, size_spill]
  have hmusicSize : Probe.musicSize ⟨f, some c⟩ (header ++ (music ++ samples)) = music.size :=
    h.musicSize
  have hmusicSize' : Probe.musicSize ⟨f, none⟩ (music ++ spill samples) = music.size := by
    show (music ++ spill samples).size - (0 + headerSize) = _
    omega
  refine loadScore_congr ?_ ?_ ?_ ?_ ?_ ?_
  · rw [hstart, hsize]
    omega
  · rw [hstart', hsize']
    omega
  · rw [hstart, hstart']
    exact (agree_container header music samples (spill samples)).mono hhead
  · rw [hmusicSize, hmusicSize']
  · rw [hstart, hstart', hmusicSize']
    refine musicData_congr fun k hk => ?_
    rw [Nat.add_assoc, u8?_append_right, Nat.zero_add]
    rcases Nat.lt_or_ge (headerSize + k) music.size with hlt | hge
    · rw [u8?_append_left _ hlt, u8?_append_left _ hlt]
    · obtain ⟨l, hl⟩ := Nat.exists_eq_add_of_le hge
      rw [hl, u8?_append_right, u8?_append_right, u8?_spill (by omega)]
      rfl
  · have hslice : slice? (header ++ (music ++ samples)) (header.size + music.size) samples.size =
        some samples := by
      rw [slice?, if_pos (by omega)]
      refine congrArg some (ext_u8? fun k => ?_)
      rcases Nat.lt_or_ge k samples.size with hk | hk
      · rw [u8?_extract _ (by omega), Nat.add_assoc, u8?_append_right, u8?_append_right]
      · rw [u8?_of_le hk, u8?_of_le (by rw [ByteArray.size_extract]; omega)]
    simp only [sampleBank, h.headerSize, h.musicSize, h.sampleSize, hslice]

theorem probe_container (h : c.Heads header music samples) (hhead : headerSize ≤ music.size) :
    probe (header ++ (music ++ samples)) =
      (probeMusic (music ++ samples) 0).map fun f => ⟨f, some c⟩ := by
  have hsize : (header ++ (music ++ samples)).size = header.size + (music.size + samples.size) := by
    rw [ByteArray.size_append, ByteArray.size_append]
  have hread : container? (header ++ (music ++ samples)) = .ok (some c) := by
    rw [← h.read]
    exact container?_congr ((agree_append_left _ _).mono (size_of_container? h.read))
  have hformat : c.format? = .ok none := by
    rw [Container.format?, h.kind, if_pos (.inr rfl)]
  have hmusic : probeMusic (header ++ (music ++ samples)) c.headerSize.toNat =
      probeMusic (music ++ samples) 0 := by
    rw [h.headerSize]
    exact probeMusic_congr (agree_append_right _ _ _)
      (hasTimeShare_congr fun n => agree_append_right _ _ n)
  rw [headerSize] at hhead
  rw [probe, if_neg (by rw [leastSize]; omega), hread]
  simp only [bind, Except.bind, pure, Except.pure, hformat, hmusic]
  cases probeMusic (music ++ samples) 0 <;> rfl

/-- The tune of a container is that of the music file with the first samples
    behind it, but for its kind, which is told with all samples behind it. -/
theorem load_container (h : c.Heads header music samples) (hhead : headerSize ≤ music.size)
    (other? : Option ByteArray) : load (header ++ (music ++ samples)) other? = (do
      let format ← probeMusic (music ++ samples) 0
      let score ← loadScore (music ++ spill samples) (some samples) ⟨format, none⟩
      return ⟨format, Probe.description ⟨format, some c⟩, "Chris Huelsbeck", score⟩) := by
  rw [load, probe_container h hhead]
  cases probeMusic (music ++ samples) 0 with
  | error e => rfl
  | ok f =>
    simp only [Except.map, bind, Except.bind, loadScore_container h hhead f other?]

end Heads

/-! ## Agreement -/

/-- A table of pointers ends inside a music file: all its entries stand there,
    and unless it is full one more, which is no valid pointer even into music
    data as large as the file. -/
structure EndsInside (music : ByteArray) (base limit : Nat) (table : Array UInt32) : Prop where
  entries : headerSize + base + 4 * table.size ≤ music.size
  ends : table.size < limit →
    ∃ v, u32? music (headerSize + base + 4 * table.size) = some v ∧ pointer? music.size v = none

theorem probe_file {p : Probe} (hfile : isContainer music = false) (h : probe music = .ok p) :
    p.container? = none ∧ probeMusic music 0 = .ok p.format := by
  have hnone : container? music = .ok none := by
    rw [container?, hfile]
    rfl
  unfold probe at h
  split_ifs at h
  · cases h
  · rw [hnone] at h
    obtain ⟨_, hnone', h⟩ := exists_of_bind_eq_ok h
    cases hnone'
    obtain ⟨f, hf, h⟩ := exists_of_bind_eq_ok h
    cases h
    exact ⟨rfl, hf⟩

/-- What the music data has where its file goes that far. -/
theorem agree_musicData {start size : Nat} (n : Nat) (hn : n ≤ size) (hfits : start + n ≤ b.size) :
    Agree (musicData b start size) 0 b start n := fun k hk => by
  rw [Nat.zero_add, u8?_musicData_of_lt (Nat.lt_of_lt_of_le hk hn), u8?_of_lt (by omega)]
  rfl

/-- The music data without its filling and its ending is that of the file. -/
theorem extract_musicData {start size : Nat} (hfits : start + size ≤ b.size) :
    (musicData b start size).extract 0 size = b.extract start (start + size) := by
  refine ext_u8? fun k => ?_
  rcases Nat.lt_or_ge k size with hk | hk
  · rw [u8?_extract _ (by omega), u8?_extract _ (by omega),
      agree_musicData size (Nat.le_refl _) hfits k hk]
  · rw [u8?_of_le (by rw [ByteArray.size_extract]; omega),
      u8?_of_le (by rw [ByteArray.size_extract]; omega)]

/-- As far as the file is large, the music data of a file with a header's worth
    of other bytes behind it is that of the file, and those bytes. -/
theorem extract_musicData_append {c : ByteArray} (hheader : headerSize ≤ music.size)
    (hc : c.size = headerSize) :
    (musicData (music ++ c) headerSize music.size).extract 0 music.size =
      music.extract headerSize music.size ++ c := by
  have hsize : (music ++ c).size = music.size + headerSize := by rw [ByteArray.size_append, hc]
  have hcut : (music.extract headerSize music.size).size = music.size - headerSize := by
    rw [ByteArray.size_extract, Nat.min_self]
  rw [extract_musicData (by omega)]
  refine ext_u8? fun k => ?_
  rcases Nat.lt_or_ge k (music.size - headerSize) with hk | hk
  · rw [u8?_append_left _ (by omega), u8?_extract _ (by omega), u8?_extract _ (by omega),
      u8?_append_left _ (by omega)]
  · obtain ⟨l, rfl⟩ := Nat.exists_eq_add_of_le hk
    rw [← hcut, u8?_append_right, hcut]
    rcases Nat.lt_or_ge l headerSize with hl | hl
    · have hplace : headerSize + (music.size - headerSize + l) = music.size + l := by omega
      rw [u8?_extract _ (by omega), hplace, u8?_append_right]
    · rw [u8?_of_le (by rw [ByteArray.size_extract]; omega), u8?_of_le (by omega)]

/-- A table that ends inside a music file stays what it is when other bytes
    follow the file. -/
theorem EndsInside.isTable {base limit size : Nat} {table : Array UInt32} {data data' : ByteArray}
    (h : EndsInside music base limit table) (htable : IsTable data size base limit table)
    (hsize : size ≤ music.size)
    (hdata : Agree data 0 music headerSize (music.size - headerSize))
    (hdata' : Agree data' 0 music headerSize (music.size - headerSize)) :
    IsTable data' music.size base limit table := by
  have hentries := h.entries
  have hread : ∀ o, headerSize + o + 4 ≤ music.size → u32? data' o = u32? music (headerSize + o) := by
    intro o ho
    have := hdata'.u32? (k := o) (by omega)
    rwa [Nat.zero_add] at this
  constructor
  · exact htable.size_le
  · intro k hk
    obtain ⟨v, hv, hge, hp, hmod, hle⟩ := htable.entry k hk
    have hv' := hdata.u32? (k := base + 4 * k) (by omega)
    rw [Nat.zero_add, hv, ← hread _ (by omega)] at hv'
    exact ⟨v, hv'.symm, hge, hp, hmod, hle.trans hsize⟩
  · intro hlt q hq
    obtain ⟨v, hv, hnone⟩ := h.ends hlt
    have hfits : headerSize + base + 4 * table.size + 4 ≤ music.size := Nat.not_lt.1 fun hlt => by
      rw [u32?_eq_none_iff.2 hlt] at hv
      cases hv
    rw [← bind_pointer?_eq_some_iff, hread _ (by omega), ← Nat.add_assoc, hv] at hq
    exact absurd (hnone.symm.trans hq) (by rintro ⟨⟩)

theorem trackStepAt?_congr (h : Agree a i b j 16) : trackStepAt? a i = trackStepAt? b j := by
  have h0 : u16? a i = u16? b j := h.u16? (k := 0) (by decide)
  rw [trackStepAt?, trackStepAt?, h0, h.u16? (k := 2) (by decide), h.u16? (k := 4) (by decide),
    h.u16? (k := 6) (by decide), h.u16? (k := 8) (by decide), h.u16? (k := 10) (by decide),
    h.u16? (k := 12) (by decide), h.u16? (k := 14) (by decide)]

theorem trackSteps_congr {base n : Nat} (h : Agree a 0 b 0 (base + n * 16)) :
    trackSteps a base n = trackSteps b base n := by
  rw [trackSteps, trackSteps, Array.mapM_eq_mapM_toList, Array.mapM_eq_mapM_toList]
  refine congrArg (List.toArray <$> ·) (mapM_congr fun k hk => ?_)
  rw [Array.toList_range, List.mem_range] at hk
  have hstep := trackStepAt?_congr (h.skip (k := base + k * 16) (m := 16) (by omega))
  rw [Nat.zero_add] at hstep
  rw [hstep]

/-- A score whose music data goes on behind its music file, as far as the file
    is large; its dialect is told from all of it. -/
def Score.lengthened (s : Score) (music behind : ByteArray) : Score :=
  { s with
    musicSize := music.size
    music := musicData (music ++ behind) headerSize music.size
    dialect := Dialect.ofMusic (music.extract headerSize music.size ++ behind) }

/-- The score of a music file is that of the file with other bytes behind it, if
    its tables end inside the file; only the music data goes on. -/
theorem Score.IsReadFrom.append {s : Score} {samples? : Option ByteArray} {f : Format}
    (f' : Format) (h : s.IsReadFrom music samples? ⟨f, none⟩) (hsize : music.size ≤ maxMusicSize)
    (hmacros : EndsInside music s.macroStart maxPointers s.macros)
    (hpatterns : EndsInside music s.patternStart (patternLimit s.patternStart s.macroStart)
      s.patterns) {c : ByteArray} (hc : c.size = headerSize) :
    (s.lengthened music c).IsReadFrom (music ++ c) samples? ⟨f', none⟩ := by
  have hheader : headerSize ≤ music.size := by simpa [Probe.start] using h.header
  have hsize' : (music ++ c).size = music.size + headerSize := by rw [ByteArray.size_append, hc]
  have hmusicSize : s.musicSize = music.size - headerSize := by
    rw [h.musicSize]
    show music.size - (0 + headerSize) = _
    rw [Nat.zero_add]
  have hagree : Agree (music ++ c) 0 music 0 headerSize := (agree_append_left music c).mono hheader
  have hdata : Agree s.music 0 music headerSize (music.size - headerSize) := by
    rw [h.music, hmusicSize]
    show Agree (musicData music (0 + headerSize) _) 0 music headerSize _
    rw [Nat.zero_add]
    exact agree_musicData _ (Nat.le_refl _) (by omega)
  have hdata' : Agree (musicData (music ++ c) headerSize music.size) 0 music headerSize
      (music.size - headerSize) := by
    refine (agree_musicData _ (Nat.sub_le _ _) (by omega)).trans ?_
    have := (agree_append_left music c).skip (k := headerSize) (m := music.size - headerSize) (by omega)
    rwa [Nat.zero_add] at this
  have hle : s.musicSize ≤ music.size := by omega
  exact {
    header := by
      show 0 + headerSize ≤ _
      omega
    comment := (commentLines_congr hagree).trans h.comment
    songs := (songTable_congr hagree).trans h.songs
    trackStart := (tableBaseAt_congr hagree (by decide)).trans h.trackStart
    patternStart :=
      (tableBaseAt_congr hagree (o := tableOffset + 4) (by decide)).trans h.patternStart
    macroStart := (tableBaseAt_congr hagree (o := tableOffset + 8) (by decide)).trans h.macroStart
    musicSize := by
      show music.size = (music ++ c).size - (0 + headerSize)
      omega
    musicSize_le := hsize
    music := by
      show musicData (music ++ c) headerSize music.size =
        musicData (music ++ c) (0 + headerSize) music.size
      rw [Nat.zero_add]
    macros :=
      (hmacros.isTable h.isTable_macros hle hdata hdata').unique (isTable_pointerTable _ _ _ _)
    patterns :=
      (hpatterns.isTable h.isTable_patterns hle hdata hdata').unique (isTable_pointerTable _ _ _ _)
    trackSteps := by
      obtain ⟨first, hfirst, hge, hsteps⟩ := h.trackSteps
      refine ⟨first, hfirst, hge, Eq.trans ?_ hsteps⟩
      -- the track steps end where the first pattern begins, inside the file
      obtain ⟨hlt, rfl⟩ := Array.getElem?_eq_some_iff.1 hfirst
      obtain ⟨v, -, -, -, -, hfits⟩ := h.isTable_patterns.entry 0 hlt
      have hend : s.trackStart + (s.patterns[0].toNat - s.trackStart) / 16 * 16 ≤
          music.size - headerSize := by
        have hge : s.trackStart ≤ s.patterns[0].toNat := hge
        omega
      exact trackSteps_congr ((hdata'.trans hdata.symm).mono hend)
    bank := h.bank
    dialect := by
      show Dialect.ofMusic (music.extract headerSize music.size ++ c) =
        Dialect.ofMusic ((musicData (music ++ c) headerSize music.size).extract 0 music.size)
      rw [extract_musicData_append hheader hc] }

/-- A container is read like the music file with the first samples behind it.
    Where the tables end inside the music file it makes the same tune as the two
    files, but for what the longer music data says of the dialect, and for the
    kind where a walk leaves the music file. -/
theorem container_agrees {c : Container} {tune : Tune} (other? : Option ByteArray)
    (h : c.Heads header music samples) (hfile : isContainer music = false)
    (hload : load music (some samples) = .ok tune) :
    load (header ++ (music ++ samples)) other? = (do
      let format ← probeMusic (music ++ samples) 0
      let score ← loadScore (music ++ spill samples) (some samples) ⟨format, none⟩
      return ⟨format, Probe.description ⟨format, some c⟩, "Chris Huelsbeck", score⟩) ∧
    (music.size ≤ maxMusicSize →
      EndsInside music tune.score.macroStart maxPointers tune.score.macros →
      EndsInside music tune.score.patternStart
        (patternLimit tune.score.patternStart tune.score.macroStart) tune.score.patterns →
      ∃ tune', load (header ++ (music ++ samples)) other? = .ok tune' ∧
        tune'.score = tune.score.lengthened music (spill samples) ∧
        ((tune.format = .early ∨
            ∃ n, Walk.Within music 0 (headerSize + tune.score.trackStart) n) →
          tune'.format = tune.format)) := by
  obtain ⟨p, hprobe, hread, htune⟩ := load_eq_ok_iff.1 hload
  obtain ⟨hnone, hkind⟩ := probe_file hfile hprobe
  obtain ⟨f, _⟩ := p
  cases hnone
  have hhead : headerSize ≤ music.size := by
    have hheader := hread.header
    rwa [show Probe.start ⟨f, none⟩ = 0 from rfl, Nat.zero_add] at hheader
  refine ⟨load_container h hhead other?, ?_⟩
  intro hsize hmacros hpatterns
  obtain ⟨f', hkind', hsame⟩ := probeMusic_append hkind hhead samples
  have hscore := loadScore_eq_ok_iff.2
    (hread.append f' hsize hmacros hpatterns (size_spill samples))
  refine ⟨⟨f', Probe.description ⟨f', some c⟩, "Chris Huelsbeck",
    tune.score.lengthened music (spill samples)⟩, ?_, rfl, ?_⟩
  · rw [load_container h hhead other?, hkind']
    simp only [bind, Except.bind, hscore]
    rfl
  · rw [htune]
    rintro (hearly | ⟨n, hwithin⟩)
    · exact hsame (.inl hearly)
    · exact hsame (.inr (hasTimeShare_append hread.trackStart hhead hwithin samples))

/-! ## Headers -/

theorem u8?_toArray (l : List UInt8) (k : Nat) : u8? ⟨l.toArray⟩ k = l[k]? := by
  rcases Nat.lt_or_ge k l.length with hk | hk
  · rw [u8?_of_lt hk, List.getElem?_eq_getElem hk]
    rfl
  · rw [u8?_of_le hk, List.getElem?_eq_none hk]

theorem append_eq_toArray (a b : ByteArray) :
    a ++ b = ⟨(a.data.toList ++ b.data.toList).toArray⟩ := by
  refine ByteArray.ext ?_
  simp

/-- A word that was written is read. -/
theorem u32?_wordBytes {l rest : List UInt8} {v : UInt32}
    (h : l.drop i = Player.wordBytes [v] ++ rest) : u32? ⟨l.toArray⟩ i = some v := by
  have hk : ∀ k, l[i + k]? = (Player.wordBytes [v] ++ rest)[k]? := fun k => by
    rw [← h, List.getElem?_drop]
  have h0 : l[i]? = (Player.wordBytes [v] ++ rest)[0]? := hk 0
  rw [u32?_eq_u8?, u8?_toArray, u8?_toArray, u8?_toArray, u8?_toArray, h0, hk, hk, hk]
  exact congrArg (some ·.bits) (Word.ofBytes_bytes ⟨v⟩)

/-- What the header of a container says, for a music file and a sample file. -/
def boxContainer (pad : Nat) (music samples : ByteArray) : Container :=
  ⟨UInt32.ofNat (18 + pad), 0, 0, UInt32.ofNat music.size, UInt32.ofNat samples.size⟩

/-- The header of a container, so many bytes longer than it has to be. -/
def boxHeader (pad : Nat) (music samples : ByteArray) : ByteArray :=
  ⟨([0x54, 0x46, 0x48, 0x44] ++ Player.wordBytes [UInt32.ofNat (18 + pad)] ++ [0, 0] ++
    Player.wordBytes [UInt32.ofNat music.size, UInt32.ofNat samples.size] ++
    List.replicate pad 0).toArray⟩

/-- Each music file and sample file have a container, whatever the size of its
    header. -/
theorem heads_boxHeader (pad : Nat) (hpad : 18 + pad < 2 ^ 32) (hm : music.size < 2 ^ 32)
    (hs : samples.size < 2 ^ 32) :
    (boxContainer pad music samples).Heads (boxHeader pad music samples) music samples := by
  have hsize : (boxHeader pad music samples).size = 18 + pad := by
    show List.length _ = _
    rw [List.length_append, List.length_replicate]
    rfl
  constructor
  · have h0 : u32? (boxHeader pad music samples) 0 = some (mark 'T' 'F' 'H' 'D') :=
      u32?_wordBytes rfl
    have h4 : u32? (boxHeader pad music samples) 4 = some (UInt32.ofNat (18 + pad)) :=
      u32?_wordBytes rfl
    have h8 : u8? (boxHeader pad music samples) 8 = some 0 := u8?_toArray _ _
    have h9 : u8? (boxHeader pad music samples) 9 = some 0 := u8?_toArray _ _
    have h10 : u32? (boxHeader pad music samples) 10 = some (UInt32.ofNat music.size) :=
      u32?_wordBytes rfl
    have h14 : u32? (boxHeader pad music samples) 14 = some (UInt32.ofNat samples.size) :=
      u32?_wordBytes rfl
    rw [container?, isContainer, h0, h4, h8, h9, h10, h14]
    rfl
  · rw [hsize]
    exact UInt32.toNat_ofNat_of_lt' hpad
  · rfl
  · exact UInt32.toNat_ofNat_of_lt' hm
  · exact UInt32.toNat_ofNat_of_lt' hs

/-! ## Two music files -/

/-- A tune whose table of macros stands at the very end of its file. -/
def edgeTune : ByteArray :=
  songTune 0 0 [0 :: List.replicate 7 0xff00] [[0xf0000000]] [[0x07000000]]

/-- The tune with the marks of the kind for four voices and with an end of its
    table of macros. -/
def closedTune : ByteArray :=
  ⟨([0x54, 0x46, 0x4d, 0x58, 0x2d, 0x53, 0x4f, 0x4e, 0x47] ++ edgeTune.data.toList.drop 9 ++
    [0, 0, 0, 0]).toArray⟩

/-- Samples that look like a pointer. -/
def pointerSamples : ByteArray := ⟨#[0, 0, 2, 0]⟩

theorem within_closedTune : Walk.Within closedTune 0 (headerSize + 0) 1 := by
  have hfits : headerSize + 0 + 1 * 16 ≤ closedTune.size := by decide +kernel
  have hstarts : ∀ k < 31, u16? closedTune (0 + songStartOffset + k * 2) = some 0 := by
    decide +kernel
  have hstep : u16? closedTune (headerSize + 0 + 0 * 16) ≠ some commandMark := by decide +kernel
  refine ⟨hfits, ?_, ?_⟩
  · intro k hk position hposition _
    rw [hstarts k hk] at hposition
    rw [← Option.some.inj hposition]
    exact Nat.zero_lt_one
  · intro w hw hon
    have hw : w.position = 0 := Nat.lt_one_iff.1 hw
    rw [Walk.step_of_no_command (by rwa [hw])] at hon
    exact absurd hon Bool.false_ne_true

/-- A container whose tables end inside its music file. -/
theorem container_agrees_closedTune : ∃ tune tune',
    load closedTune (some pointerSamples) = .ok tune ∧
    load (boxHeader 14 closedTune pointerSamples ++ (closedTune ++ pointerSamples)) none =
      .ok tune' ∧
    tune'.format = tune.format ∧ tune'.score.comment = tune.score.comment ∧
    tune'.score.songs = tune.score.songs ∧ tune'.score.trackSteps = tune.score.trackSteps ∧
    tune'.score.patterns = tune.score.patterns ∧ tune'.score.macros = tune.score.macros ∧
    tune'.score.bank = tune.score.bank ∧ tune.score.macros.size = 1 := by
  have h : (load closedTune (some pointerSamples)).toOption.map (fun tune =>
      (tune.score.trackStart, tune.score.patternStart, tune.score.macroStart,
        tune.score.patterns.size, tune.score.macros.size)) = some (0, 24, 28, 1, 1) := by
    decide +kernel
  have hfile : isContainer closedTune = false := by decide +kernel
  have hsize : closedTune.size = 548 := by decide +kernel
  have hend : u32? closedTune (headerSize + 28 + 4 * 1) = some 0 := by decide +kernel
  obtain ⟨tune, hload, h⟩ := Option.map_eq_some_iff.1 h
  simp only [Prod.mk.injEq] at h
  obtain ⟨htrack, hpattern, hprogram, hpatterns, hmacros⟩ := h
  have hload := Player.eq_ok_of_toOption hload
  have hheads : (boxContainer 14 closedTune pointerSamples).Heads _ closedTune pointerSamples :=
    heads_boxHeader 14 (by decide) (by rw [hsize]; decide) (by decide)
  obtain ⟨tune', hload', hscore, hformat⟩ := (container_agrees none hheads hfile hload).2
    (by rw [hsize]; decide)
    ⟨by rw [hprogram, hmacros, hsize]; decide,
      fun _ => ⟨0, by rw [hprogram, hmacros, hend], by rw [hsize]; decide⟩⟩
    ⟨by rw [hpattern, hpatterns, hsize]; decide, fun hlt => by
      rw [hpattern, hpatterns, hprogram] at hlt
      exact absurd hlt (by decide)⟩
  refine ⟨tune, tune', hload, hload', hformat (.inr ⟨1, ?_⟩), ?_, ?_, ?_, ?_, ?_, ?_, hmacros⟩
  · rw [htrack]
    exact within_closedTune
  all_goals rw [hscore]; rfl

/-- In the container of another one the samples are read as one more macro. -/
theorem more_macros_edgeTune : ∃ tune tune',
    (boxContainer 0 edgeTune pointerSamples).Heads (boxHeader 0 edgeTune pointerSamples)
      edgeTune pointerSamples ∧ isContainer edgeTune = false ∧
    load edgeTune (some pointerSamples) = .ok tune ∧
    load (boxHeader 0 edgeTune pointerSamples ++ (edgeTune ++ pointerSamples)) none = .ok tune' ∧
    tune.score.macros.size = 1 ∧ tune'.score.macros.size = 2 := by
  have h : (load edgeTune (some pointerSamples)).toOption.map (fun tune =>
      tune.score.macros.size) = some 1 := by decide +kernel
  have h' : (load (boxHeader 0 edgeTune pointerSamples ++ (edgeTune ++ pointerSamples))
      none).toOption.map (fun tune => tune.score.macros.size) = some 2 := by
    rw [append_eq_toArray, append_eq_toArray]
    decide +kernel
  have hfile : isContainer edgeTune = false := by decide +kernel
  have hsize : edgeTune.size < 2 ^ 32 := by decide +kernel
  obtain ⟨tune, hload, hmacros⟩ := Option.map_eq_some_iff.1 h
  obtain ⟨tune', hload', hmacros'⟩ := Option.map_eq_some_iff.1 h'
  exact ⟨tune, tune', heads_boxHeader 0 (by decide) hsize (by decide), hfile,
    Player.eq_ok_of_toOption hload, Player.eq_ok_of_toOption hload', hmacros, hmacros'⟩

end PaulaReplay
