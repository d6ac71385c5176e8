import BuildWatch.Execution.Capture
import Mathlib.Data.List.Basic

namespace BuildWatch.Execution

section Capture

/-- What is kept of a stream does not depend on the pieces that it arrives in. -/
theorem capture_eq (room : Nat) (pieces : List Bytes) :
    capture room pieces =
      ⟨pieces.flatten.take room, decide (room < pieces.flatten.length)⟩ := by
  induction pieces generalizing room with
  | nil => simp [capture]
  | cons piece pieces ih =>
    rw [capture, ih]
    by_cases h : piece.length ≤ room
    · have hkept : min room piece.length = piece.length := Nat.min_eq_right h
      simp only [hkept, List.take_length, List.flatten_cons, List.take_append, List.length_append,
        List.take_of_length_le h, Nat.lt_irrefl, decide_false, Bool.false_or, Capture.mk.injEq,
        true_and, decide_eq_decide]
      omega
    · have hlt : room < piece.length := Nat.not_le.mp h
      have hkept : min room piece.length = room := Nat.min_eq_left (Nat.le_of_lt hlt)
      have htake : (piece ++ pieces.flatten).take room = piece.take room :=
        List.take_append_of_le_length (Nat.le_of_lt hlt)
      have hmore : room < (piece ++ pieces.flatten).length := by
        rw [List.length_append]
        omega
      simp only [hkept, Nat.sub_self, List.take_zero, List.append_nil, List.flatten_cons, htake, hlt,
        hmore, decide_true, Bool.true_or]

theorem flatten_piecesOf (size fuel : Nat) (bs : Bytes) : (piecesOf size fuel bs).flatten = bs := by
  induction fuel generalizing bs with
  | zero => cases bs <;> simp [piecesOf]
  | succ fuel ih =>
    cases bs with
    | nil => rfl
    | cons b bs => rw [piecesOf, List.flatten_cons, ih, List.take_append_drop]; simp

theorem captureStream_eq (room : Nat) (stream : Bytes) :
    captureStream room stream = ⟨stream.take room, decide (room < stream.length)⟩ := by
  rw [captureStream, capture_eq, flatten_piecesOf]

end Capture

/-- Reads that give a stream. None of them is empty, which would tell that the stream is over, and
none is longer than the pieces that are asked for. -/
structure Delivers (reads : List Bytes) (stream : Bytes) : Prop where
  whole : reads.flatten = stream
  nonempty : ∀ piece ∈ reads, piece ≠ []
  bounded : ∀ piece ∈ reads, piece.length ≤ pieceSize

structure Reading where
  unread : List Bytes
  kept : Bytes
  truncated : Bool

namespace Reading

def start (reads : List Bytes) : Reading := ⟨reads, [], false⟩

def next? (room : Nat) (r : Reading) : Option Reading :=
  match r.unread with
  | [] => none
  | [] :: _ => none
  | piece :: unread =>
    let taken := min (room - r.kept.length) piece.length
    some ⟨unread, r.kept ++ piece.take taken, r.truncated || decide (taken < piece.length)⟩

inductive Ends (room : Nat) : Reading → Reading → Prop where
  | ended {r : Reading} (h : r.next? room = none) : Ends room r r
  | more {r later last : Reading} (h : r.next? room = some later) (hlast : Ends room later last) :
    Ends room r last

/-- The part of the stream that is read already was cut where the room was used up. -/
structure Sound (room : Nat) (stream seen : Bytes) (r : Reading) : Prop where
  split : stream = seen ++ r.unread.flatten
  kept : r.kept = seen.take room
  truncated : r.truncated = decide (room < seen.length)
  nonempty : ∀ piece ∈ r.unread, piece ≠ []

variable {room : Nat} {stream seen : Bytes} {reads : List Bytes} {r later last : Reading}

theorem next?_eq_some (h : r.next? room = some later) :
    ∃ piece, r.unread = piece :: later.unread ∧
      later.kept = r.kept ++ piece.take (room - r.kept.length) ∧
      later.truncated = (r.truncated || decide (room - r.kept.length < piece.length)) := by
  rw [next?] at h
  split at h
  · cases h
  · cases h
  · next piece unread _ hunread =>
    cases h
    refine ⟨piece, hunread, ?_, congrArg (r.truncated || ·) (decide_eq_decide.mpr ?_)⟩
    · rw [← List.take_eq_take_min]
    · omega

theorem sound_start (h : Delivers reads stream) : (start reads).Sound room stream [] :=
  ⟨h.whole.symm, List.take_nil.symm, rfl, h.nonempty⟩

theorem Sound.step (hr : r.Sound room stream seen) (h : r.next? room = some later) :
    ∃ piece, later.Sound room stream (seen ++ piece) := by
  obtain ⟨piece, hunread, hkept, htruncated⟩ := next?_eq_some h
  have hlength : r.kept.length = min room seen.length := by rw [hr.kept, List.length_take]
  refine ⟨piece, ?_, ?_, ?_, fun p hp => hr.nonempty p ?_⟩
  · rw [hr.split, hunread, List.flatten_cons, List.append_assoc]
  · rw [hkept, hr.kept, List.take_append, List.length_take]
    congr 2
    omega
  · rw [htruncated, hr.truncated, hlength, List.length_append, ← Bool.decide_or, decide_eq_decide]
    omega
  · rw [hunread]
    exact List.mem_cons_of_mem piece hp

theorem Sound.ends (he : r.Ends room last) (hr : r.Sound room stream seen) :
    ∃ seen', last.Sound room stream seen' := by
  induction he generalizing seen with
  | ended h => exact ⟨seen, hr⟩
  | more h _ ih =>
    obtain ⟨piece, hlater⟩ := hr.step h
    exact ih hlater

theorem Ends.next?_eq_none (he : r.Ends room last) : last.next? room = none := by
  induction he with
  | ended h => exact h
  | more _ _ ih => exact ih

theorem exists_ends (room : Nat) (r : Reading) : ∃ last, r.Ends room last := by
  obtain ⟨unread, kept, truncated⟩ := r
  induction unread generalizing kept truncated with
  | nil => exact ⟨_, .ended rfl⟩
  | cons piece unread ih =>
    cases h : next? room ⟨piece :: unread, kept, truncated⟩ with
    | none => exact ⟨_, .ended h⟩
    | some later =>
      obtain ⟨unread', kept', truncated'⟩ := later
      obtain ⟨_, hunread, -, -⟩ := next?_eq_some h
      obtain ⟨-, rfl⟩ := List.cons.inj hunread
      obtain ⟨last, hlast⟩ := ih kept' truncated'
      exact ⟨last, .more h hlast⟩

theorem Sound.eq_of_next?_eq_none (hr : r.Sound room stream seen) (h : r.next? room = none) :
    r = ⟨[], stream.take room, decide (room < stream.length)⟩ := by
  obtain ⟨unread, kept, truncated⟩ := r
  cases unread with
  | nil =>
    obtain rfl : stream = seen := hr.split.trans (List.append_nil seen)
    rw [show kept = _ from hr.kept, show truncated = _ from hr.truncated]
  | cons piece unread =>
    have hpiece := hr.nonempty piece List.mem_cons_self
    cases piece with
    | nil => exact absurd rfl hpiece
    | cons b piece => cases h

end Reading

theorem bounds_of_mem_piecesOf {size fuel : Nat} {bs piece : Bytes} (hsize : 0 < size)
    (hfuel : bs.length ≤ fuel) (h : piece ∈ piecesOf size fuel bs) :
    piece ≠ [] ∧ piece.length ≤ size := by
  induction fuel generalizing bs with
  | zero =>
    rw [List.length_eq_zero_iff.mp (Nat.le_zero.mp hfuel)] at h
    cases h
  | succ fuel ih =>
    cases bs with
    | nil => cases h
    | cons b bs =>
      obtain ⟨size, rfl⟩ := Nat.exists_eq_add_one.mpr hsize
      rcases List.mem_cons.mp h with rfl | h
      · exact ⟨List.cons_ne_nil _ _, List.length_take_le _ _⟩
      · refine ih ?_ h
        rw [List.drop_succ_cons, List.length_drop]
        exact Nat.le_trans (Nat.sub_le ..) (Nat.le_of_succ_le_succ hfuel)

theorem delivers_piecesOf (stream : Bytes) :
    Delivers (piecesOf pieceSize stream.length stream) stream := by
  have hsize : 0 < pieceSize := by decide
  refine ⟨flatten_piecesOf .., fun piece h => ?_, fun piece h => ?_⟩
  · exact (bounds_of_mem_piecesOf hsize (Nat.le_refl _) h).1
  · exact (bounds_of_mem_piecesOf hsize (Nat.le_refl _) h).2

/-- However a stream is delivered, it is read to its end, its first bytes are kept for which there
is room, and that some were left out is told exactly if it is longer than that. -/
theorem capture_of_delivery {reads : List Bytes} {stream : Bytes} (h : Delivers reads stream)
    (room : Nat) :
    let kept := stream.take (min room stream.length)
    let truncated := decide (room < stream.length)
    (∀ last, (Reading.start reads).Ends room last ↔ last = ⟨[], kept, truncated⟩) ∧
      capture room reads = ⟨kept, truncated⟩ ∧
      Delivers (piecesOf pieceSize stream.length stream) stream ∧
      captureStream room stream = ⟨kept, truncated⟩ := by
  intro kept truncated
  have hkept : stream.take room = kept := List.take_eq_take_min
  have hlast : ∀ last, (Reading.start reads).Ends room last → last = ⟨[], kept, truncated⟩ := by
    intro last he
    obtain ⟨seen, hsound⟩ := (Reading.sound_start h).ends he
    rw [hsound.eq_of_next?_eq_none he.next?_eq_none, hkept]
  refine ⟨fun last => ⟨hlast last, ?_⟩, ?_, delivers_piecesOf stream, ?_⟩
  · rintro rfl
    obtain ⟨last, he⟩ := Reading.exists_ends room (Reading.start reads)
    rwa [← hlast last he]
  · rw [capture_eq, h.whole, hkept]
  · rw [captureStream_eq, hkept]

theorem capture_of_delivery_cut :
    let reads : List Bytes := [[1, 2], [3, 4, 5], [6]]
    Delivers reads [1, 2, 3, 4, 5, 6] ∧
      (Reading.start reads).Ends 3 ⟨[], [1, 2, 3], true⟩ ∧ capture 3 reads = ⟨[1, 2, 3], true⟩ := by
  intro reads
  have h : Delivers reads [1, 2, 3, 4, 5, 6] := ⟨rfl, by decide, by decide⟩
  obtain ⟨hends, hcapture, -⟩ := capture_of_delivery h 3
  exact ⟨h, (hends _).mpr rfl, hcapture⟩

end BuildWatch.Execution
