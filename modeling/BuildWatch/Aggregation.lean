import BuildWatch.Diagnostic.Map
import BuildWatch.Noise
import BuildWatch.Record

namespace BuildWatch

namespace Record

def paragraphs (r : Record) : List String :=
  let extras := Text.trim r.extras.toList
  (if extras.isEmpty then [] else [.ofList extras]) ++ r.details.map Noise.strip

def placeholder : String := "build error"

def message (r : Record) : String :=
  let lines := r.paragraphs
  if lines.all fun l => Text.allBlank l.toList then placeholder else "\n".intercalate lines

def diagnostic (isPrimary : SourceTest) (r : Record) : Diagnostic :=
  ⟨r.message, .ofRecord isPrimary r⟩

def path (r : Record) : Path := ⟨r.file⟩

end Record

namespace DiagnosticMap

def ofRecords (isPrimary : SourceTest) (records : List Record) : DiagnosticMap :=
  records.foldl (fun s r => s.push r.path (r.diagnostic isPrimary)) empty

end DiagnosticMap

end BuildWatch
