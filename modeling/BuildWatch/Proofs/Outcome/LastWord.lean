import BuildWatch.Proofs.Outcome
import BuildWatch.Proofs.Text.Lines
import BuildWatch.Proofs.Text.Utf8

namespace BuildWatch

namespace Failure

open Text

def heading (status : Execution.Status) : String := "Build tool failed (" ++ status.text ++ ")"

/-- A notice shows the last line of a text that is not blank after the status, and the status alone
exactly if there is none. -/
structure Quotes (status : Execution.Status) (text : List Char) (notice : String) : Prop where
  line : ∀ before body after, LastVisible text before body after →
    notice = heading status ++ ": " ++ .ofList (trim body)
  alone : notice = heading status ↔ allBlank text = true

def words : Option (List Char) → String
  | some line => ": " ++ .ofList line
  | none => ""

theorem words_injective {a b : Option (List Char)} (h : words a = words b) : a = b := by
  have hlist := congrArg String.toList h
  cases a <;> cases b <;> simp_all [words, String.ofList_inj]

variable {status : Execution.Status} {text other : List Char} {notice : String}

theorem notice_exited (status : Execution.Status) (stderr : String) :
    (exited status stderr).notice = heading status ++ words (lastVisibleLine stderr.toList) := rfl

theorem heading_append_inj {a b : String} : heading status ++ a = heading status ++ b ↔ a = b := by
  rw [← String.toList_inj, String.toList_append, String.toList_append, List.append_cancel_left_eq,
    String.toList_inj]

theorem quotes_iff :
    Quotes status text notice ↔ notice = heading status ++ words (lastVisibleLine text) := by
  have hnone : heading status ++ words none = heading status := String.append_empty
  constructor
  · intro h
    cases hline : lastVisibleLine text with
    | none => rw [h.alone.mpr (lastVisibleLine_eq_none_iff.mp hline), hnone]
    | some line =>
      obtain ⟨before, body, after, hlast, rfl⟩ := exists_lastVisible hline
      rw [h.line before body after hlast, String.append_assoc]
      rfl
  · rintro rfl
    refine ⟨fun before body after hlast => ?_, ?_⟩
    · rw [hlast.found, String.append_assoc]
      rfl
    · nth_rewrite 2 [← hnone]
      rw [heading_append_inj, ← lastVisibleLine_eq_none_iff]
      exact ⟨words_injective, congrArg words⟩

end Failure

namespace Execution

open Failure Text Utf8

variable {limit : Option UInt64} {b : Behaviour} {status : Status}

theorem Behaviour.result?_of_exit (hends : b.ending = .exits status)
    (hstatus : status.isSuccess = false) (hsize : b.stdout.length ≤ maxOutput) :
    b.result? limit = some (.error (.exited status (errorText b.stderr))) := by
  simp only [result?, outcome?, hends, outputOf_eq, if_neg (Nat.not_lt.mpr hsize), hstatus]
  rfl

theorem notice_of_errorText (status : Status) (stderr : Bytes) :
    (exited status (errorText stderr)).notice =
      heading status ++ words (lastVisibleLine (decodeLossy (stderr.take maxErrors))) := by
  rw [notice_exited, errorText, String.toList_ofList]

/-- A tool that fails has the last word of the front of its standard error stream that is kept.
This is its last word as a whole exactly if the last lines that are not blank are the same, and so
it is if the stream is not too long to be kept as a whole. -/
theorem notice_of_exit (limit : Option UInt64) (hends : b.ending = .exits status)
    (hstatus : status.isSuccess = false) (hsize : b.stdout.length ≤ maxOutput) :
    let kept := decodeLossy (b.stderr.take maxErrors)
    let whole := decodeLossy b.stderr
    ∃ failure, b.result? limit = some (.error failure) ∧
      Quotes status kept failure.notice ∧
      (Quotes status whole failure.notice ↔ lastVisibleLine kept = lastVisibleLine whole) ∧
      (b.stderr.length ≤ maxErrors → Quotes status whole failure.notice) := by
  intro kept whole
  have hkept : Quotes status kept (exited status (errorText b.stderr)).notice :=
    quotes_iff.mpr (notice_of_errorText status b.stderr)
  refine ⟨_, Behaviour.result?_of_exit hends hstatus hsize, hkept, ?_, fun hlength => ?_⟩
  · rw [quotes_iff, notice_of_errorText, heading_append_inj]
    exact ⟨words_injective, congrArg words⟩
  · have hwhole : kept = whole := congrArg decodeLossy (List.take_of_length_le hlength)
    rwa [← hwhole]

theorem notice_of_exit_telling :
    let b : Behaviour := ⟨[], encodeString "one\n two \r\n\n", .exits (.exited 1)⟩
    b.ending = .exits (.exited 1) ∧ (Status.exited 1).isSuccess = false ∧
      b.stdout.length ≤ maxOutput ∧ b.stderr.length ≤ maxErrors ∧
      ∃ failure, b.result? none = some (.error failure) ∧
        failure.notice = "Build tool failed (exit status: 1): two" := by
  intro b
  have hlength : b.stderr.length ≤ maxErrors := by decide
  obtain ⟨failure, hresult, -, -, hwhole⟩ :=
    notice_of_exit (b := b) none rfl rfl (Nat.zero_le maxOutput)
  have htext : decodeLossy b.stderr = "one\n two \r\n\n".toList := decodeLossy_encode _
  have hlast : LastVisible (decodeLossy b.stderr) "one\n".toList " two \r".toList "\n\n".toList := by
    rw [htext]
    exact ⟨by decide, .inr (by decide), by decide, .inr (by decide), by decide, by decide⟩
  refine ⟨rfl, rfl, Nat.zero_le _, hlength, failure, hresult, ?_⟩
  rw [(hwhole hlength).line _ _ _ hlast]
  decide +kernel

def flooding : Behaviour :=
  ⟨[], encode (.replicate maxErrors '\n') ++ encodeString "fatal", .exits (.exited 1)⟩

theorem length_encode_breaks (n : Nat) : (encode (.replicate n '\n')).length = n := by
  have hbreak : String.utf8EncodeChar '\n' = [0x0a] := rfl
  rw [encode, List.flatMap_replicate, hbreak, List.flatten_replicate_singleton,
    List.length_replicate]

/-- Its last word is at the very end of the stream, but what is told of it is the status alone. -/
theorem notice_of_flooding :
    LastVisible (decodeLossy flooding.stderr) (.replicate maxErrors '\n') "fatal".toList [] ∧
      encodeString "fatal" <:+ flooding.stderr ∧ (encodeString "fatal").length ≤ maxErrors ∧
      ∃ failure, flooding.result? none = some (.error failure) ∧
        failure.notice = "Build tool failed (exit status: 1)" ∧
        ¬Quotes (.exited 1) (decodeLossy flooding.stderr) failure.notice := by
  have hwhole : decodeLossy flooding.stderr = .replicate maxErrors '\n' ++ "fatal".toList := by
    rw [flooding, encodeString, encode, encode, ← List.flatMap_append]
    exact decodeLossy_encode _
  have hkept : decodeLossy (flooding.stderr.take maxErrors) = .replicate maxErrors '\n' := by
    rw [flooding, List.take_left' (length_encode_breaks maxErrors), decodeLossy_encode]
  have hbreaks : allBlank (.replicate maxErrors '\n') = true := by
    rw [allBlank, List.all_replicate]
    rfl
  have hvisible : allBlank "fatal".toList = false := by decide
  have hlast : LastVisible (decodeLossy flooding.stderr) (.replicate maxErrors '\n')
      "fatal".toList [] := by
    refine ⟨?_, .inr ?_, by decide, .inl rfl, hvisible, rfl⟩
    · rw [hwhole, List.append_nil]
    · rw [List.getLast?_replicate, if_neg (by decide)]
  have hnotice : (exited (.exited 1) (errorText flooding.stderr)).notice = heading (.exited 1) := by
    rw [notice_of_errorText, hkept, lastVisibleLine_eq_none_iff.mpr hbreaks]
    exact String.append_empty
  refine ⟨hlast, List.suffix_append _ _, by decide, _,
    Behaviour.result?_of_exit rfl rfl (Nat.zero_le maxOutput), ?_, fun h => ?_⟩
  · rw [hnotice]
    decide +kernel
  · have hblank := h.alone.mp hnotice
    rw [hwhole] at hblank
    rw [(allBlank_append.mp hblank).2] at hvisible
    cases hvisible

end Execution

end BuildWatch
