import BuildWatch.Execution.Status
import BuildWatch.Record.Payload
import BuildWatch.Text.Lines

namespace BuildWatch

inductive SystemError where
  | code (n : Nat)
  | permissionDenied
  | custom (text : String)
  deriving DecidableEq, Repr

namespace SystemError

def codeText (n : Nat) : String :=
  match n with
  | 1 => "Operation not permitted"
  | 2 => "No such file or directory"
  | 8 => "Exec format error"
  | 13 => "Permission denied"
  | 20 => "Not a directory"
  | 21 => "Is a directory"
  | 36 => "File name too long"
  | 40 => "Too many levels of symbolic links"
  | n => "Unknown error " ++ toString n

def message : SystemError → String
  | .code n => codeText n ++ " (os error " ++ toString n ++ ")"
  | .permissionDenied => "permission denied"
  | .custom text => text

end SystemError

inductive StartError where
  | notFound (tool : Option String)
  | launch (tool : String) (cause : SystemError)
  deriving DecidableEq, Repr

inductive Failure where
  | start (e : StartError)
  | exited (status : Execution.Status) (stderr : String)
  | unreadable (cause : SystemError)
  | tooLarge (limit : Nat)
  | payload (e : PayloadError)
  | timedOut (limit : UInt64)
  | cancelled

namespace Failure

def durationText (ms : Nat) : String :=
  if ms = 0 then "0ns"
  else if ms < 1000 then toString ms ++ "ms"
  else
    let digits := (Nat.toDigits 10 (1000 + ms % 1000)).tail
    let fraction := (digits.reverse.dropWhile (· = '0')).reverse
    toString (ms / 1000) ++ (if fraction.isEmpty then "" else "." ++ .ofList fraction) ++ "s"

def message : Failure → String
  | .start (.notFound tool) =>
    "build tool binary " ++ tool.getD "(not configured)" ++ " not found"
  | .start (.launch tool cause) => "failed to launch " ++ tool ++ ": " ++ cause.message
  | .exited status _ => "build tool exited with " ++ status.text
  | .unreadable cause => "reading build tool output: " ++ cause.message
  | .tooLarge limit => "build tool output exceeded " ++ toString limit ++ " bytes"
  | .payload e => "build tool output is not an error list: " ++ e.message
  | .timedOut limit => "build tool did not finish within " ++ durationText limit.toNat
  | .cancelled => "run was cancelled"

/-- The text for whoever asked for the run. A tool that fails has the last word. -/
def notice : Failure → String
  | .start (.notFound (some tool)) =>
    "Build tool binary not found: " ++ tool ++ ". Check the server_binary setting."
  | .start (.notFound none) =>
    "Build tool binary not found. Set server_binary in the configuration."
  | .start (.launch tool cause) => "Could not launch " ++ tool ++ ": " ++ cause.message
  | .exited status stderr =>
    "Build tool failed (" ++ status.text ++ ")" ++
      match Text.lastVisibleLine stderr.toList with
      | some line => ": " ++ .ofList line
      | none => ""
  | .unreadable cause => "Build tool failed: " ++ (Failure.unreadable cause).message
  | .tooLarge limit => "Build tool failed: " ++ (Failure.tooLarge limit).message
  | .payload e => "Build tool produced unexpected output: " ++ e.message
  | .timedOut limit => "Build tool timed out after " ++ toString limit.toNat ++ " ms"
  | .cancelled => "Build cancelled"

end Failure

end BuildWatch
