import BuildWatch.Report

namespace BuildWatch

/-- The reports that a service has for its client, the oldest first. Only so many fit between the
two at a time: a service that has more stands still until some are taken, and so the client finds
the others when it looks again. -/
structure Mailbox where
  reports : List Report

namespace Mailbox

def empty : Mailbox := ⟨[]⟩

def capacity : Nat := 64

def put (b : Mailbox) (reports : List Report) : Mailbox := ⟨b.reports ++ reports⟩

def look (b : Mailbox) : List Report × Mailbox :=
  (b.reports.take capacity, ⟨b.reports.drop capacity⟩)

/-- Take reports as they come up to the first one of a run that was not superseded, and then those
that are found at one look. -/
def await (b : Mailbox) : List Report × Mailbox :=
  let front := b.reports.takeWhile Report.isSuperseded
  let rest := b.reports.drop front.length
  let (found, left) := Mailbox.look ⟨rest.tail⟩
  (front ++ rest.take 1 ++ found, left)

end Mailbox

end BuildWatch
