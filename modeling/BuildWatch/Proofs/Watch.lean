import BuildWatch.Proofs.Sample
import BuildWatch.Proofs.Service.Shutdown
import BuildWatch.Watch

namespace BuildWatch

namespace Service

variable {v : Service}

theorem foldl_send (hv : v.isOpen = true) (cs : List Command) :
    cs.foldl send v = { v with queue := v.queue ++ cs } := by
  induction cs generalizing v with
  | nil => rw [List.foldl_nil, List.append_nil]
  | cons c cs ih =>
    have hc : v.send c = { v with queue := v.queue ++ [c] } := if_pos hv
    rw [List.foldl_cons, hc, ih (v := { v with queue := v.queue ++ [c] }) hv, List.append_assoc]
    rfl

theorem isOpen_next (v : Service) (m : Execution.Machine) :
    (v.step (.next m)).1.isOpen = v.isOpen := by
  simp only [step, next]
  split
  · rfl
  · split
    · rfl
    · split <;> rfl

end Service

namespace Watch

def linesOf (text : String) : List String := (Text.lines text.toList).map .ofList

def quits (root : Path) (line : String) : Bool :=
  match Event.parse root line with
  | .ok (some .quit) => true
  | _ => false

/-- The command that a line asks for. A blank line asks for none, nor does one that tells nothing or
one whose trigger is refused. -/
def command? (policy : Policy) (root : Path) (line : String) : Option Command :=
  match Event.parse root line with
  | .ok (some .stop) => some .cancel
  | .ok (some event) => ((event.trigger? root).filter policy.admits).map .trigger
  | _ => none

inductive Move where
  | hear
  | next (m : Execution.Machine)
  | settle (id : RunId)
  | collect

namespace Move

def event? : Move → Option Service.Event
  | .hear => none
  | .next m => some (.next m)
  | .settle id => some (.settle id)
  | .collect => some .collect

def hears (move : Move) : Bool := move.event?.isNone

end Move

structure Hosted where
  session : Session
  unread : List String

namespace Hosted

/-- Take the next line. The end of the text is as good as a line that quits. -/
def hear (x : Hosted) : Hosted × Console :=
  if !x.session.listening then (x, .empty)
  else
    match x.unread with
    | [] => (⟨x.session.hangUp, []⟩, .empty)
    | line :: lines =>
      let (session, console) := x.session.hear line
      (⟨session, lines⟩, console)

def step (x : Hosted) (move : Move) : Hosted × Console :=
  match move.event? with
  | none => x.hear
  | some e =>
    let (session, console) := x.session.serve e
    (⟨session, x.unread⟩, console)

def run (x : Hosted) : List Move → Hosted × Console
  | [] => (x, .empty)
  | move :: moves =>
    let (x, console) := x.step move
    let (x, rest) := x.run moves
    (x, console ++ rest)

def taken (x : Hosted) : List Move → List Command
  | [] => []
  | move :: moves =>
    ((move.event?.bind x.session.service.turn?).bind Turn.command?).toList ++
      (x.step move).1.taken moves

/-- The unread lines that come before one that quits. -/
def due (x : Hosted) : List String := x.unread.takeWhile fun line => !quits x.session.root line

def asked (x : Hosted) (n : Nat) : List Command :=
  if x.session.listening then (x.due.take n).filterMap (command? x.session.policy x.session.root)
  else []

end Hosted

section Lines

variable {s : Session} {line : String}

theorem hear_of_quits (hl : s.listening = true) (hq : quits s.root line = true) :
    s.hear line = (s.hangUp, .empty) := by
  unfold quits at hq
  split at hq
  · next hp => simp [Session.hear, hl, respond, hp]
  · cases hq

theorem hear_of_not_quits (hl : s.listening = true) (hq : quits s.root line = false) :
    (s.hear line).1 =
      { s with service := (command? s.policy s.root line).toList.foldl .send s.service } := by
  obtain ⟨root, policy, service, listening⟩ := s
  obtain rfl : listening = true := hl
  dsimp only at hq ⊢
  simp only [Session.hear, Bool.not_true, Bool.false_eq_true, if_false, respond, command?]
  unfold quits at hq
  cases hp : Event.parse root line with
  | error e => rfl
  | ok event? =>
    cases event? with
    | none => rfl
    | some event =>
      cases event with
      | quit => simp [hp] at hq
      | stop => rfl
      | saved document | opened document | run document =>
        simp only [Event.trigger?, Option.filter_some]
        cases policy.admits _ <;> rfl

end Lines

namespace Hosted

structure Sound (x : Hosted) : Prop where
  isOpen : x.session.service.isOpen = x.session.listening
  running : x.session.listening = true → x.session.service.hasEnded = false

section Serve

variable {x : Hosted} {move : Move} {e : Service.Event}

theorem step_of_event (he : move.event? = some e) :
    x.step move =
      (⟨{ x.session with service := (x.session.service.step e).1 }, x.unread⟩,
        .ofOutput (x.session.service.step e).2) := by
  simp only [step, he, Session.serve]

theorem isOpen_event (he : move.event? = some e) (v : Service) :
    (v.step e).1.isOpen = v.isOpen := by
  cases move with
  | hear => cases he
  | next m => exact Option.some.inj he ▸ v.isOpen_next m
  | settle id => exact Option.some.inj he ▸ rfl
  | collect => exact Option.some.inj he ▸ v.intake_collect.2

theorem queue_event (he : move.event? = some e) (v : Service) :
    v.queue = ((v.turn? e).bind Turn.command?).toList ++ (v.step e).1.queue := by
  have hc := v.commands_step e []
  cases move with
  | hear => cases he
  | next m | settle id | collect =>
    cases he
    simpa only [Service.accepted, ite_self, List.append_nil] using hc

theorem sound_event (hx : x.Sound) (he : move.event? = some e) : (x.step move).1.Sound := by
  rw [step_of_event he]
  refine ⟨(isOpen_event he _).trans hx.isOpen, fun hl => ?_⟩
  refine Service.hasEnded_step_of_ne (hx.running hl) fun ht => ?_
  obtain ⟨-, hb⟩ := Service.brings_of_turn? ht
  cases hb with
  | shut m hq ho =>
    rw [hx.isOpen, hl] at ho
    cases ho

end Serve

section Hear

variable {x : Hosted}

theorem hear_of_deaf (hl : x.session.listening = false) : x.hear = (x, .empty) := by
  simp [hear, hl]

theorem hear_of_not_due (hl : x.session.listening = true) (hd : x.due = []) :
    ∃ rest, x.hear = (⟨x.session.hangUp, rest⟩, .empty) := by
  obtain ⟨session, unread⟩ := x
  dsimp only at hl
  cases unread with
  | nil => exact ⟨[], by simp [hear, hl]⟩
  | cons line lines =>
    have hq : quits session.root line = true := by
      cases hq : quits session.root line with
      | true => rfl
      | false => simp [due, hq] at hd
    exact ⟨lines, by simp [hear, hl, hear_of_quits hl hq]⟩

theorem hear_of_due (hx : x.Sound) (hl : x.session.listening = true) {line : String}
    {lines : List String} (hd : x.due = line :: lines) :
    x.hear.1.due = lines ∧ x.hear.1.session = { x.session with service :=
      { x.session.service with
        queue := x.session.service.queue ++
          (command? x.session.policy x.session.root line).toList } } := by
  obtain ⟨session, unread⟩ := x
  have ho : session.service.isOpen = true := hx.isOpen.trans hl
  dsimp only at hl
  cases unread with
  | nil => cases hd
  | cons first rest =>
    cases hq : quits session.root first with
    | true => simp [due, hq] at hd
    | false =>
      simp only [due, List.takeWhile_cons, hq, Bool.not_false, if_true, List.cons.injEq] at hd
      obtain ⟨rfl, rfl⟩ := hd
      have hs := hear_of_not_quits hl hq
      rw [Service.foldl_send ho] at hs
      simp only [hear, hl, hs, due, Bool.not_true, Bool.false_eq_true, if_false, and_self]

theorem sound_hear (hx : x.Sound) : x.hear.1.Sound := by
  cases hl : x.session.listening with
  | false => rwa [hear_of_deaf hl]
  | true =>
    cases hd : x.due with
    | nil =>
      obtain ⟨rest, h⟩ := hear_of_not_due hl hd
      rw [h]
      exact ⟨rfl, nofun⟩
    | cons line lines =>
      obtain ⟨-, h⟩ := hear_of_due hx hl hd
      exact ⟨by rw [h]; exact hx.isOpen, by rw [h]; exact hx.running⟩

theorem queue_hear (hx : x.Sound) (n : Nat) :
    x.session.service.queue ++ x.asked (n + 1) =
      x.hear.1.session.service.queue ++ x.hear.1.asked n := by
  cases hl : x.session.listening with
  | false => simp [hear_of_deaf hl, asked, hl]
  | true =>
    cases hd : x.due with
    | nil =>
      obtain ⟨rest, h⟩ := hear_of_not_due hl hd
      simp [h, asked, hl, hd, Session.hangUp, Service.close]
    | cons line lines =>
      obtain ⟨hrest, h⟩ := hear_of_due hx hl hd
      simp only [asked, hrest, h, hl, hd, if_true, List.take_succ_cons, List.append_assoc]
      cases hc : command? x.session.policy x.session.root line <;> simp [hc]

theorem listening_hear (hx : x.Sound) :
    x.hear.1.session.listening = true ↔ x.session.listening = true ∧ x.due ≠ [] := by
  cases hl : x.session.listening with
  | false => simp [hear_of_deaf hl, hl]
  | true =>
    cases hd : x.due with
    | nil =>
      obtain ⟨rest, h⟩ := hear_of_not_due hl hd
      simp [h, Session.hangUp]
    | cons line lines => simp [(hear_of_due hx hl hd).2, hl]

end Hear

section Run

variable {x y : Hosted}

theorem step_of_hear {move : Move} (he : move.event? = none) : x.step move = x.hear := by
  simp only [step, he]

theorem sound_step (hx : x.Sound) (move : Move) : (x.step move).1.Sound := by
  cases he : move.event? with
  | none =>
    rw [step_of_hear he]
    exact sound_hear hx
  | some e => exact sound_event hx he

theorem sound_run (hx : x.Sound) (moves : List Move) : (x.run moves).1.Sound := by
  induction moves generalizing x with
  | nil => exact hx
  | cons move moves ih => exact ih (sound_step hx move)

/-- At any time, what was taken and what is in the queue is what the lines heard so far ask for. -/
theorem queue_run (hx : x.Sound) (moves : List Move) :
    x.taken moves ++ (x.run moves).1.session.service.queue =
      x.session.service.queue ++ x.asked (moves.countP Move.hears) := by
  induction moves generalizing x with
  | nil => simp [taken, run, asked]
  | cons move moves ih =>
    have hrest := ih (sound_step hx move)
    have hrun : (x.run (move :: moves)).1 = ((x.step move).1.run moves).1 := rfl
    rw [hrun, taken, List.append_assoc, hrest, List.countP_cons]
    cases he : move.event? with
    | none =>
      have hh : move.hears = true := by simp [Move.hears, he]
      rw [if_pos hh, queue_hear hx, step_of_hear he]
      rfl
    | some e =>
      have hh : ¬move.hears = true := by simp [Move.hears, he]
      rw [if_neg hh, step_of_event he, queue_event he x.session.service, List.append_assoc]
      rfl

theorem listening_run (hx : x.Sound) (moves : List Move) :
    (x.run moves).1.session.listening = true ↔
      x.session.listening = true ∧ moves.countP Move.hears ≤ x.due.length := by
  induction moves generalizing x with
  | nil => simp [run]
  | cons move moves ih =>
    have hrun : (x.run (move :: moves)).1 = ((x.step move).1.run moves).1 := rfl
    rw [hrun, ih (sound_step hx move), List.countP_cons]
    cases he : move.event? with
    | none =>
      have hh : move.hears = true := by simp [Move.hears, he]
      rw [if_pos hh, step_of_hear he, listening_hear hx]
      cases hl : x.session.listening with
      | false => simp
      | true =>
        cases hd : x.due with
        | nil => simp
        | cons line lines => simp [(hear_of_due hx hl hd).1]
    | some e =>
      have hh : ¬move.hears = true := by simp [Move.hears, he]
      rw [if_neg hh, step_of_event he]
      rfl

/-- Two sessions that are at the same point, with the same lines before them up to one that quits. -/
structure Alike (x y : Hosted) : Prop where
  session : x.session = y.session
  unread : x.session.listening = true → ∃ front tail tail', x.unread = front ++ tail ∧
    y.unread = front ++ tail' ∧ ∃ line ∈ front, quits x.session.root line = true

theorem root_hear (s : Session) (line : String) : (s.hear line).1.root = s.root := by
  unfold Session.hear
  split
  · rfl
  · split <;> rfl

theorem alike_hear (h : Alike x y) : Alike x.hear.1 y.hear.1 ∧ x.hear.2 = y.hear.2 := by
  obtain ⟨session, unread⟩ := x
  obtain ⟨session', unread'⟩ := y
  obtain rfl : session = session' := h.session
  cases hl : session.listening with
  | false =>
    rw [hear_of_deaf hl, hear_of_deaf hl]
    exact ⟨h, rfl⟩
  | true =>
    obtain ⟨front, tail, tail', rfl, rfl, line, hline, hq⟩ := h.unread hl
    cases front with
    | nil => cases hline
    | cons first front =>
      simp only [hear, hl, List.cons_append, Bool.not_true, Bool.false_eq_true, if_false, and_true]
      refine ⟨rfl, fun hl' => ⟨front, tail, tail', rfl, rfl, line, ?_, ?_⟩⟩
      · -- after the line that quits nobody listens any more
        rcases List.mem_cons.mp hline with rfl | hline
        · rw [hear_of_quits hl hq] at hl'
          cases hl'
        · exact hline
      · dsimp only
        rwa [root_hear]

theorem alike_step (h : Alike x y) (move : Move) :
    Alike (x.step move).1 (y.step move).1 ∧ (x.step move).2 = (y.step move).2 := by
  cases he : move.event? with
  | none =>
    rw [step_of_hear he, step_of_hear he]
    exact alike_hear h
  | some e =>
    rw [step_of_event he, step_of_event he, h.session]
    exact ⟨⟨rfl, h.session ▸ h.unread⟩, rfl⟩

theorem alike_run (h : Alike x y) (moves : List Move) :
    (x.run moves).1.session = (y.run moves).1.session ∧ (x.run moves).2 = (y.run moves).2 := by
  induction moves generalizing x y with
  | nil => exact ⟨h.session, rfl⟩
  | cons move moves ih =>
    obtain ⟨hs, hc⟩ := alike_step h move
    obtain ⟨hsession, hrest⟩ := ih hs
    refine ⟨hsession, ?_⟩
    change (x.step move).2 ++ ((x.step move).1.run moves).2 = _
    rw [hc, hrest]
    rfl

end Run

theorem ofSettings_eq {s : Settings} {policy : Policy}
    (hpolicy : Policy.ofSettings s = .ok policy) (root : Path) :
    Session.ofSettings s root = .ok ⟨root, policy,
      { Service.ofPublisher (.new s) with queue := firstCommands s root }, true⟩ := by
  rw [Session.ofSettings, hpolicy, Service.foldl_send rfl]
  rfl

/-- While the host of a watch session is heard, its service gets these commands in this order: a run
on the whole workspace if that is wanted at the beginning, and then what the lines of the text ask
for, up to the first line that quits. Whatever the service does in the meantime, it has taken the
first of them and has the others in its queue, and it does not end before it has got all. What comes
after a line that quits makes no difference, not even to what is written. -/
theorem commands_of_text (s : Settings) (root : Path) (text : String) {policy : Policy}
    (hpolicy : Policy.ofSettings s = .ok policy) (moves : List Move) :
    ∃ session, Session.ofSettings s root = .ok session ∧
      let x : Hosted := ⟨session, linesOf text⟩
      let y := (x.run moves).1
      let first := if s.runOnOpen then [Command.trigger ⟨.command, root, none⟩] else []
      let lines := (linesOf text).takeWhile fun line => !quits root line
      let queued := x.taken moves ++ y.session.service.queue
      let hears := moves.countP Move.hears
      queued = first ++ (lines.take hears).filterMap (command? policy root) ∧
      (y.session.listening = true ↔ hears ≤ lines.length) ∧
      (y.session.listening = true → y.session.service.hasEnded = false) ∧
      (y.session.listening = false → queued = first ++ lines.filterMap (command? policy root)) ∧
      ∀ front tail tail', linesOf text = front ++ tail →
        (∃ line ∈ front, quits root line = true) →
        let z : Hosted := ⟨session, front ++ tail'⟩
        (z.run moves).1.session = y.session ∧ (z.run moves).2 = (x.run moves).2 := by
  refine ⟨_, ofSettings_eq hpolicy root, ?_⟩
  intro x y first lines queued hears
  have hx : x.Sound := ⟨rfl, fun _ => rfl⟩
  have hlisten : y.session.listening = true ↔ hears ≤ lines.length :=
    (listening_run hx moves).trans (and_iff_right rfl)
  have hqueue : queued = first ++ (lines.take hears).filterMap (command? policy root) :=
    queue_run hx moves
  refine ⟨hqueue, hlisten, (sound_run hx moves).running, fun hdeaf => ?_, ?_⟩
  · have hall : ¬hears ≤ lines.length := by
      rw [← hlisten, hdeaf]
      exact Bool.false_ne_true
    rw [hqueue, List.take_of_length_le (Nat.le_of_not_le hall)]
  · intro front tail tail' htext hquits z
    have halike : Alike z x := ⟨rfl, fun _ => ⟨front, tail', tail, rfl, htext, hquits⟩⟩
    exact alike_run halike moves

def usual : Policy := ⟨true, true, (Glob.parseAll ["*.yaml", "*.cabal"]).toOption.getD []⟩

theorem commands_of_text_mixed :
    let text := "save x.yaml\n\nopen A\r\nbogus\nstop\n quit \nrun\nstop"
    let m := Sample.machine Sample.hanging
    let moves := [.hear, .next m, .hear, .hear, .collect, .hear, .hear, .next m, .hear, .hear]
    Policy.ofSettings Sample.settings = .ok usual ∧
      ∃ session, Session.ofSettings Sample.settings ⟨"/w"⟩ = .ok session ∧
      let x : Hosted := ⟨session, linesOf text⟩
      (x.run moves).1.session.listening = false ∧
        x.taken moves ++ (x.run moves).1.session.service.queue =
          [.trigger ⟨.command, ⟨"/w"⟩, none⟩, .trigger ⟨.opened, ⟨"/w"⟩, some ⟨"/w/A"⟩⟩,
            .cancel] := by
  intro text m moves
  have hpolicy : Policy.ofSettings Sample.settings = .ok usual := rfl
  obtain ⟨session, hsession, -, hlisten, -, hqueued, -⟩ :=
    commands_of_text Sample.settings ⟨"/w"⟩ text hpolicy moves
  have hlines : (linesOf text).takeWhile (fun line => !quits ⟨"/w"⟩ line) =
      ["save x.yaml", "", "open A", "bogus", "stop"] := by decide +kernel
  have hsaved : usual.admits ⟨.saved, ⟨"/w"⟩, some ⟨"/w/x.yaml"⟩⟩ = false := by decide +kernel
  have hopened : usual.admits ⟨.opened, ⟨"/w"⟩, some ⟨"/w/A"⟩⟩ = true := by decide +kernel
  have hsave : command? usual ⟨"/w"⟩ "save x.yaml" = none := by
    have hparse : Event.parse ⟨"/w"⟩ "save x.yaml" = .ok (some (.saved ⟨"/w/x.yaml"⟩)) := rfl
    simp only [command?, hparse, Event.trigger?, Option.filter_some, hsaved]
    rfl
  have hopen : command? usual ⟨"/w"⟩ "open A" =
      some (.trigger ⟨.opened, ⟨"/w"⟩, some ⟨"/w/A"⟩⟩) := by
    have hparse : Event.parse ⟨"/w"⟩ "open A" = .ok (some (.opened ⟨"/w/A"⟩)) := rfl
    simp only [command?, hparse, Event.trigger?, Option.filter_some, hopened]
    rfl
  have hdeaf : ((Hosted.mk session (linesOf text)).run moves).1.session.listening = false := by
    rw [← Bool.not_eq_true, hlisten, hlines]
    decide
  refine ⟨hpolicy, session, hsession, hdeaf, (hqueued hdeaf).trans ?_⟩
  rw [hlines]
  simp only [List.filterMap_cons, hsave, hopen]
  rfl

end Hosted

end Watch

end BuildWatch
