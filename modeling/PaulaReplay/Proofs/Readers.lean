/-
  Readers: what reads words that jump back, and how often it reads them.

  A track and the macro of a channel both read words one after the other, wait between them,
  and count the jumps of a loop in a counter that says outside of loops that there is none.
  What they have in common is a reader.

  * `WordLoop`: some words, the last of which jumps back to the first; `WordLoop.rest`: those
    that are still to be read, `WordLoop.allWords` those of all passes;
  * `Reader`: the moves that read words; `Reader.Obeys`: what becomes of its place at a word
    that stays in the loop, and at one that jumps back;
  * `Reader.At`: a reader stands in the loop, with so many passes to come;
    `Reader.Completes`: it has read the words of all of them, and stands behind the loop;
  * `Reader.Proceeds`: some moves bring a reader on in a loop, or to its end; `append` for
    moves one after the other, `proceeds_word` for one word, `proceeds_idle` for none;
  * `Reader.Repeats`: a loop is read as often as its last word says and once more;
    `Reader.Parts`: some moves in their parts; `repeats_of_parts`: a loop is repeated from
    its beginning on, as each part proceeds.
-/
import PaulaReplay.Word

namespace PaulaReplay

/-! ## Loops -/

/-- Some words from a step on, with the one behind them that jumps back. -/
structure WordLoop where
  base : UInt32
  start : UInt16
  body : List Word
  loop : Word

namespace WordLoop

variable (L : WordLoop)

/-- The words of one pass. -/
def words : List Word := L.body ++ [L.loop]

/-- How often the last one jumps back. -/
def count : Nat := L.loop.byte1.toNat

/-- The words of all passes. -/
def allWords : List Word := (List.replicate (L.count + 1) L.words).flatten

/-- The words that are still to be read in a pass from an offset on, and in so many passes
    after it. -/
def rest (passes offset : Nat) : List Word :=
  L.words.drop offset ++ (List.replicate passes L.words).flatten

/-- The step of an offset. -/
def stepAt (offset : Nat) : UInt16 := L.start + UInt16.ofNat offset

/-- The jumps that are counted while so many passes are to come: the first pass is outside of
    the loop yet. -/
def jumps (passes : Nat) : Option Nat := if passes = L.count then none else some passes

theorem rest_count_zero : L.rest L.count 0 = L.allWords := by
  rw [rest, allWords, List.replicate_succ, List.flatten_cons, List.drop_zero]

theorem rest_of_body {k : Nat} {w : Word} (hw : L.body[k]? = some w) (passes : Nat) :
    L.rest passes k = w :: L.rest passes (k + 1) := by
  obtain ⟨hk, rfl⟩ := List.getElem?_eq_some_iff.1 hw
  have hlt : k < L.words.length := by
    rw [words, List.length_append]
    exact Nat.lt_add_right _ hk
  have hget : L.words[k] = L.body[k] := List.getElem_append_left hk
  rw [rest, rest, List.drop_eq_getElem_cons hlt, hget]
  rfl

theorem rest_succ_of_loop (passes : Nat) :
    L.rest (passes + 1) L.body.length = L.loop :: L.rest passes 0 := by
  rw [rest, rest, words, List.drop_left, List.replicate_succ, List.flatten_cons, List.drop_zero]
  rfl

theorem rest_zero_of_loop : L.rest 0 L.body.length = [L.loop] := by
  rw [rest, words, List.drop_left, List.replicate_zero]
  rfl

theorem rest_ne_nil {passes offset : Nat} (h : offset ≤ L.body.length) :
    L.rest passes offset ≠ [] := by
  intro hnil
  have hlength := congrArg List.length (List.append_eq_nil_iff.1 hnil).1
  rw [List.length_drop, words, List.length_append] at hlength
  have hone : [L.loop].length = 1 := rfl
  have hzero : ([] : List Word).length = 0 := rfl
  omega

theorem stepAt_zero : L.stepAt 0 = L.start := by
  rw [stepAt]
  exact UInt16.add_zero _

theorem stepAt_succ (offset : Nat) : L.stepAt (offset + 1) = L.stepAt offset + 1 := by
  rw [stepAt, stepAt, UInt16.ofNat_add, UInt16.add_assoc]
  rfl

/-- The words of a loop are in the music data: those of its body stay in it, and the last one
    jumps back to the first, once at least. -/
structure Fits (word? : UInt32 → UInt16 → Option Word) (stays loops : Word → Bool)
    (L : WordLoop) : Prop where
  body : ∀ k w, L.body[k]? = some w → word? L.base (L.stepAt k) = some w ∧ stays w = true
  last : word? L.base (L.stepAt L.body.length) = some L.loop
  loops : loops L.loop = true
  back : L.loop.low = L.start
  counts : L.loop.byte1 ≠ 0

theorem fits_one {word? : UInt32 → UInt16 → Option Word} {stays loops : Word → Bool}
    {base : UInt32} {start : UInt16} {w loop : Word} (hword : word? base start = some w)
    (hstays : stays w = true) (hnext : word? base (start + 1) = some loop)
    (hloops : loops loop = true) (hback : loop.low = start) (hcounts : loop.byte1 ≠ 0) :
    Fits word? stays loops ⟨base, start, [w], loop⟩ where
  body := by
    rintro (_ | k) w' hw' <;> cases hw'
    rw [stepAt_zero]
    exact ⟨hword, hstays⟩
  last := hnext
  loops := hloops
  back := hback
  counts := hcounts

end WordLoop

/-! ## Readers -/

/-- What reads words as it makes moves. -/
structure Reader (σ μ : Type) where
  apply : σ → μ → σ
  /-- The word that a move reads, if it does. -/
  word? : σ → μ → Option Word
  /-- Where the words begin, the next one, and the jumps that the loop in hand still
      makes. -/
  Stands : UInt32 → UInt16 → Option Nat → σ → Prop
  /-- How long it waits, and more than it ever does. -/
  wait : σ → Nat
  period : Nat

namespace Reader

variable {σ μ : Type}

/-- The state after some moves. -/
def run (R : Reader σ μ) (ms : List μ) (s : σ) : σ := ms.foldl R.apply s

/-- The words that some moves read. -/
def words (R : Reader σ μ) : List μ → σ → List Word
  | [], _ => []
  | mv :: ms, s => (R.word? s mv).toList ++ R.words ms (R.apply s mv)

/-- A reader that comes to a word which stays in the loop goes on behind it, and one that
    jumps back is counted. -/
structure Obeys (R : Reader σ μ) (stays loops : Word → Bool) : Prop where
  wait_lt : ∀ s, R.wait s < R.period
  stays : ∀ {base step jumps s mv w}, R.Stands base step jumps s → R.word? s mv = some w →
    stays w = true → R.Stands base (step + 1) jumps (R.apply s mv)
  begins : ∀ {base step s mv w}, R.Stands base step none s → R.word? s mv = some w →
    loops w = true → w.byte1 ≠ 0 → R.Stands base w.low (some (w.byte1.toNat - 1)) (R.apply s mv)
  again : ∀ {base step n s mv w}, R.Stands base step (some (n + 1)) s → R.word? s mv = some w →
    loops w = true → n < 255 → R.Stands base w.low (some n) (R.apply s mv)
  ends : ∀ {base step s mv w}, R.Stands base step (some 0) s → R.word? s mv = some w →
    loops w = true → R.Stands base (step + 1) none (R.apply s mv)

variable {R : Reader σ μ} {L : WordLoop} {word? : UInt32 → UInt16 → Option Word}
  {stays loops : Word → Bool} {s : σ} {ms ns : List μ} {mv : μ} {p k c d : Nat}

theorem run_append (ms ns : List μ) (s : σ) : R.run (ms ++ ns) s = R.run ns (R.run ms s) :=
  List.foldl_append

theorem words_append (ms ns : List μ) (s : σ) :
    R.words (ms ++ ns) s = R.words ms s ++ R.words ns (R.run ms s) := by
  induction ms generalizing s with
  | nil => rfl
  | cons mv ms ih =>
    show _ ++ R.words (ms ++ ns) _ = (_ ++ R.words ms _) ++ _
    rw [ih, List.append_assoc]
    rfl

theorem words_eq_nil (h : ∀ mv ∈ ms, ∀ s, R.word? s mv = none) : R.words ms s = [] := by
  induction ms generalizing s with
  | nil => rfl
  | cons mv ms ih =>
    rw [words, h mv List.mem_cons_self, ih fun mv' h' => h mv' (List.mem_cons_of_mem mv h')]
    rfl

theorem words_singleton (mv : μ) (s : σ) : R.words [mv] s = (R.word? s mv).toList :=
  List.append_nil _

/-! ### Places in a loop -/

/-- A reader stands at an offset in a loop, with so many passes to come after this one. -/
structure At (R : Reader σ μ) (L : WordLoop) (passes offset : Nat) (s : σ) : Prop where
  passes_le : passes ≤ L.count
  offset_le : offset ≤ L.body.length
  stands : R.Stands L.base (L.stepAt offset) (L.jumps passes) s

/-- Some moves begin with ones that read the words of a loop from an offset on and in so many
    passes after it, and then the reader stands behind the loop, which is none in hand any
    more. -/
def Completes (R : Reader σ μ) (L : WordLoop) (passes offset : Nat) (ms : List μ) (s : σ) : Prop :=
  ∃ before after, ms = before ++ after ∧ R.words before s = L.rest passes offset ∧
    R.Stands L.base (L.stepAt (L.body.length + 1)) none (R.run before s)

/-- Some moves complete a loop, or bring the reader on in it: it has read the words in
    between, and has not waited for longer than these words can make it wait.  So many units
    of time, rows or ticks, are in the moves. -/
def Proceeds (R : Reader σ μ) (L : WordLoop) (time passes offset : Nat) (ms : List μ) (s : σ) :
    Prop :=
  R.Completes L passes offset ms s ∨
    ∃ passes' offset', R.At L passes' offset' (R.run ms s) ∧
      R.words ms s ++ L.rest passes' offset' = L.rest passes offset ∧
      time + R.wait (R.run ms s) ≤ R.period * (R.words ms s).length + R.wait s

/-- Moves that read nothing leave a reader where it is. -/
structure Idles (R : Reader σ μ) (ms : List μ) (s : σ) : Prop where
  words : R.words ms s = []
  stands : ∀ {base step jumps}, R.Stands base step jumps s → R.Stands base step jumps (R.run ms s)

theorem idles_nil (s : σ) : R.Idles [] s := ⟨rfl, id⟩

theorem Idles.cons (hmv : R.word? s mv = none)
    (hstands : ∀ {base step jumps}, R.Stands base step jumps s →
      R.Stands base step jumps (R.apply s mv))
    (h : R.Idles ms (R.apply s mv)) : R.Idles (mv :: ms) s := by
  refine ⟨?_, fun hs => h.stands (hstands hs)⟩
  rw [Reader.words, hmv, h.words]
  rfl

theorem At.idles (h : R.At L p k s) (hms : R.Idles ms s) : R.At L p k (R.run ms s) :=
  ⟨h.passes_le, h.offset_le, hms.stands h.stands⟩

theorem Completes.append_right (h : R.Completes L p k ms s) (ns : List μ) :
    R.Completes L p k (ms ++ ns) s := by
  obtain ⟨before, after, rfl, hwords, hstands⟩ := h
  exact ⟨before, after ++ ns, List.append_assoc _ _ _, hwords, hstands⟩

/-- A reader that comes on in a loop, and then completes it, completes it. -/
theorem Completes.append_left {p' k' : Nat} (h : R.Completes L p' k' ns (R.run ms s))
    (hwords : R.words ms s ++ L.rest p' k' = L.rest p k) : R.Completes L p k (ms ++ ns) s := by
  obtain ⟨before, after, rfl, hbefore, hstands⟩ := h
  refine ⟨ms ++ before, after, (List.append_assoc _ _ _).symm, ?_, ?_⟩
  · rw [words_append, hbefore, hwords]
  · rw [run_append]
    exact hstands

theorem Proceeds.append (h : R.Proceeds L c p k ms s)
    (h' : ∀ p' k', R.At L p' k' (R.run ms s) → R.Proceeds L d p' k' ns (R.run ms s)) :
    R.Proceeds L (c + d) p k (ms ++ ns) s := by
  rcases h with hdone | ⟨p', k', hat, hwords, htime⟩
  · exact .inl (hdone.append_right ns)
  · rcases h' p' k' hat with hdone | ⟨p'', k'', hat', hwords', htime'⟩
    · exact .inl (hdone.append_left hwords)
    · refine .inr ⟨p'', k'', ?_, ?_, ?_⟩
      · rw [run_append]
        exact hat'
      · rw [words_append, List.append_assoc, hwords', hwords]
      · rw [words_append, run_append, List.length_append, Nat.mul_add]
        omega

theorem Proceeds.of_le (h : R.Proceeds L c p k ms s) (hd : d ≤ c) : R.Proceeds L d p k ms s := by
  refine h.imp_right ?_
  rintro ⟨p', k', hat, hwords, htime⟩
  exact ⟨p', k', hat, hwords, by omega⟩

theorem proceeds_idle (h : R.At L p k s) (hms : R.Idles ms s)
    (htime : c + R.wait (R.run ms s) ≤ R.wait s) : R.Proceeds L c p k ms s := by
  refine .inr ⟨p, k, h.idles hms, ?_, ?_⟩
  · rw [hms.words, List.nil_append]
  · rw [hms.words, List.length_nil, Nat.mul_zero, Nat.zero_add]
    exact htime

/-! ### Words of a loop -/

/-- After a word of a loop a reader is at the next one, and after the last word of the last
    pass it stands behind the loop. -/
theorem next_cases (hR : R.Obeys stays loops) (hL : L.Fits word? stays loops) (h : R.At L p k s)
    (hmv : R.word? s mv = word? L.base (L.stepAt k)) :
    ∃ w, R.word? s mv = some w ∧
      ((∃ p' k', R.At L p' k' (R.apply s mv) ∧ L.rest p k = w :: L.rest p' k') ∨
        L.rest p k = [w] ∧
          R.Stands L.base (L.stepAt (L.body.length + 1)) none (R.apply s mv)) := by
  have hcount : 0 < L.count := by
    refine Nat.pos_of_ne_zero fun hzero => hL.counts ?_
    exact UInt8.toNat_inj.1 hzero
  have hlt : L.count < 256 := L.loop.byte1.toNat_lt
  rcases Nat.lt_or_eq_of_le h.offset_le with hk | rfl
  · -- a word of the body
    have hget : L.body[k]? = some L.body[k] := List.getElem?_eq_getElem hk
    obtain ⟨hword, hstays⟩ := hL.body k _ hget
    rw [hword] at hmv
    have hstands := hR.stays h.stands hmv hstays
    rw [← L.stepAt_succ] at hstands
    exact ⟨_, hmv, .inl ⟨p, k + 1, ⟨h.passes_le, hk, hstands⟩, L.rest_of_body hget p⟩⟩
  · -- the one that jumps back
    have hstands := h.stands
    rw [hL.last] at hmv
    refine ⟨_, hmv, ?_⟩
    rw [L.stepAt_succ]
    rcases Nat.lt_or_eq_of_le h.passes_le with hp | rfl
    · rw [WordLoop.jumps, if_neg (Nat.ne_of_lt hp)] at hstands
      cases p with
      | zero => exact .inr ⟨L.rest_zero_of_loop, hR.ends hstands hmv hL.loops⟩
      | succ p =>
        have hagain := hR.again hstands hmv hL.loops (by omega)
        rw [hL.back, ← L.stepAt_zero] at hagain
        refine .inl ⟨p, 0, ⟨by omega, Nat.zero_le _, ?_⟩, L.rest_succ_of_loop p⟩
        rw [WordLoop.jumps, if_neg (by omega)]
        exact hagain
    · rw [WordLoop.jumps, if_pos rfl] at hstands
      have hbegins := hR.begins hstands hmv hL.loops hL.counts
      rw [hL.back, ← L.stepAt_zero] at hbegins
      obtain ⟨n, hn⟩ := Nat.exists_eq_succ_of_ne_zero (Nat.ne_of_gt hcount)
      refine .inl ⟨n, 0, ⟨by omega, Nat.zero_le _, ?_⟩, ?_⟩
      · rw [WordLoop.jumps, if_neg (by omega)]
        have hjumps : L.loop.byte1.toNat - 1 = n := by
          show L.count - 1 = n
          omega
        rwa [hjumps] at hbegins
      · rw [hn]
        exact L.rest_succ_of_loop n

/-- A word proceeds in a loop, and so it does behind moves that read nothing. -/
theorem proceeds_word (hR : R.Obeys stays loops) (hL : L.Fits word? stays loops)
    (h : R.At L p k s) (hms : R.Idles ms s)
    (hmv : R.word? (R.run ms s) mv = word? L.base (L.stepAt k)) :
    R.Proceeds L 1 p k (ms ++ [mv]) s := by
  obtain ⟨w, hw, hnext⟩ := next_cases hR hL (h.idles hms) hmv
  have hwords : R.words (ms ++ [mv]) s = [w] := by
    rw [words_append, hms.words, words_singleton, hw]
    rfl
  have hrun : R.run (ms ++ [mv]) s = R.apply (R.run ms s) mv := run_append ms [mv] s
  rcases hnext with ⟨p', k', hat, hrest⟩ | ⟨hrest, hstands⟩
  · refine .inr ⟨p', k', ?_, ?_, ?_⟩
    · rw [hrun]
      exact hat
    · rw [hwords, hrest]
      rfl
    · rw [hwords, hrun]
      have hwait := hR.wait_lt (R.apply (R.run ms s) mv)
      show _ ≤ R.period * 1 + _
      omega
  · refine .inl ⟨ms ++ [mv], [], (List.append_nil _).symm, ?_, ?_⟩
    · rw [hwords, hrest]
    · rw [hrun]
      exact hstands

/-- A move that reads the word where the reader stands, wherever it is. -/
def Reads (R : Reader σ μ) (word? : UInt32 → UInt16 → Option Word) (mv : μ) : Prop :=
  ∀ ⦃base step jumps s⦄, R.Stands base step jumps s → R.word? s mv = word? base step

theorem Reads.of_forall_eq (hmv : R.Reads word? mv) (hms : ∀ mv' ∈ ms, mv' = mv) :
    ∀ mv' ∈ ms, R.Reads word? mv' := by
  intro mv' h'
  rw [hms mv' h']
  exact hmv

theorem proceeds_words (hR : R.Obeys stays loops) (hL : L.Fits word? stays loops)
    (h : R.At L p k s) (hms : ∀ mv ∈ ms, R.Reads word? mv) : R.Proceeds L 0 p k ms s := by
  induction ms generalizing p k s with
  | nil => exact proceeds_idle h (idles_nil s) (Nat.le_of_eq (Nat.zero_add _))
  | cons mv ms ih =>
    have hread := hms mv List.mem_cons_self h.stands
    have hfirst : R.Proceeds L 0 p k [mv] s :=
      (proceeds_word hR hL h (idles_nil s) hread).of_le (Nat.zero_le 1)
    exact hfirst.append fun _ _ hat => ih hat fun mv' h' => hms mv' (List.mem_cons_of_mem mv h')

/-- A reader that reads one word at least can be given a unit of time for them. -/
theorem proceeds_turn (hR : R.Obeys stays loops) (hL : L.Fits word? stays loops)
    (h : R.At L p k s) (hms : R.Idles ms s) (hmv : R.Reads word? mv)
    (hns : ∀ mv ∈ ns, R.Reads word? mv) : R.Proceeds L 1 p k (ms ++ mv :: ns) s := by
  have hfirst := proceeds_word hR hL h hms (hmv (hms.stands h.stands))
  have hturn := hfirst.append fun _ _ hat => proceeds_words hR hL hat hns
  rwa [List.append_assoc] at hturn

/-! ### Repetitions -/

/-- A loop is read from its beginning as often as its last word says and once more, and
    then the reader stands behind it, with no loop in hand: it is so in some of the moves,
    unless these are too few for it.  Up to then the moves read the words of the passes in
    their order. -/
def Repeats (R : Reader σ μ) (L : WordLoop) (time : Nat) (ms : List μ) (s : σ) : Prop :=
  (∃ before after, ms = before ++ after ∧ R.words before s = L.allWords ∧
      R.Stands L.base (L.stepAt (L.body.length + 1)) none (R.run before s)) ∨
    R.words ms s <+: L.allWords ∧ time < R.period * L.allWords.length

theorem at_start (h : R.Stands L.base L.start none s) : R.At L L.count 0 s := by
  refine ⟨Nat.le_refl _, Nat.zero_le _, ?_⟩
  rw [L.stepAt_zero, WordLoop.jumps, if_pos rfl]
  exact h

theorem repeats_of_proceeds (hR : R.Obeys stays loops) (h : R.Proceeds L c L.count 0 ms s) :
    R.Repeats L c ms s := by
  rw [Proceeds, Completes, L.rest_count_zero] at h
  refine h.imp_right ?_
  rintro ⟨p, k, hat, hwords, htime⟩
  have hlength := congrArg List.length hwords
  have hne : 0 < (L.rest p k).length := List.length_pos_iff.2 (L.rest_ne_nil hat.offset_le)
  have hwait := hR.wait_lt s
  rw [List.length_append] at hlength
  refine ⟨⟨_, hwords⟩, ?_⟩
  have hle : R.period * ((R.words ms s).length + 1) ≤ R.period * L.allWords.length :=
    Nat.mul_le_mul_left _ (by omega)
  rw [Nat.mul_add] at hle
  omega

/-- Some moves in their parts, one after the other, with the time that they take together. -/
inductive Parts (R : Reader σ μ) (part : Nat → List μ → σ → Prop) : Nat → List μ → σ → Prop where
  | nil (s : σ) : Parts R part 0 [] s
  | cons {c d : Nat} {ms ns : List μ} {s : σ} : part c ms s → Parts R part d ns (R.run ms s) →
      Parts R part (c + d) (ms ++ ns) s

theorem Parts.single {part : Nat → List μ → σ → Prop} (h : part c ms s) : R.Parts part c ms s := by
  have hnil := Parts.cons h (Parts.nil (R.run ms s))
  rwa [List.append_nil] at hnil

theorem Parts.proceeds {part : Nat → List μ → σ → Prop}
    (hpart : ∀ {c p k ms s}, part c ms s → R.At L p k s → R.Proceeds L c p k ms s)
    (hms : R.Parts part c ms s) (h : R.At L p k s) : R.Proceeds L c p k ms s := by
  induction hms generalizing p k with
  | nil s => exact proceeds_idle h (idles_nil s) (Nat.le_of_eq (Nat.zero_add _))
  | cons hfirst _ ih => exact (hpart hfirst h).append fun _ _ hat => ih hat

theorem repeats_of_parts {part : Nat → List μ → σ → Prop} (hR : R.Obeys stays loops)
    (hpart : ∀ {c p k ms s}, part c ms s → R.At L p k s → R.Proceeds L c p k ms s)
    (h : R.Stands L.base L.start none s) (hms : R.Parts part c ms s) : R.Repeats L c ms s :=
  repeats_of_proceeds hR (hms.proceeds hpart (at_start h))

end Reader

end PaulaReplay
