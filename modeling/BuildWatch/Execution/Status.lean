namespace BuildWatch.Execution

/-- How a process ended, in the 32 bits that the system reports it in. -/
structure Status where
  bits : UInt32
  deriving DecidableEq, Repr

namespace Status

def signalNames : List String := [
  "SIGHUP", "SIGINT", "SIGQUIT", "SIGILL", "SIGTRAP", "SIGABRT", "SIGBUS", "SIGFPE", "SIGKILL",
  "SIGUSR1", "SIGSEGV", "SIGUSR2", "SIGPIPE", "SIGALRM", "SIGTERM", "SIGSTKFLT", "SIGCHLD",
  "SIGCONT", "SIGSTOP", "SIGTSTP", "SIGTTIN", "SIGTTOU", "SIGURG", "SIGXCPU", "SIGXFSZ",
  "SIGVTALRM", "SIGPROF", "SIGWINCH", "SIGIO", "SIGPWR", "SIGSYS"]

def signalText (n : Nat) : String :=
  match n with
  | 0 => "0"
  | k + 1 =>
    match signalNames[k]? with
    | some name => toString n ++ " (" ++ name ++ ")"
    | none => toString n

def exited (code : Int) : Status := ⟨.ofNat ((code % 256).toNat * 256)⟩

def killed (signal : Nat) : Status := ⟨.ofNat signal⟩

def isSuccess (s : Status) : Bool := s.bits = 0

def text (s : Status) : String :=
  let n := s.bits.toNat
  let second := toString (n / 256 % 256)
  if n % 128 = 0 then "exit status: " ++ second
  else if n % 128 ≠ 127 then
    "signal: " ++ signalText (n % 128) ++ (if n / 128 % 2 = 1 then " (core dumped)" else "")
  else if n % 256 = 127 then
    "stopped (not terminated) by signal: " ++ signalText (n / 256 % 256)
  else if n = 0xffff then "continued (WIFCONTINUED)"
  else
    "unrecognised wait status: " ++ toString s.bits.toInt32.toInt ++ " 0x" ++
      .ofList (Nat.toDigits 16 n)

end Status

end BuildWatch.Execution
