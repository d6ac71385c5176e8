import BuildWatch.Publisher

namespace BuildWatch.Sample

open Execution

def machine (b : Behaviour) : Machine where
  files := ⟨[(["bin"], .directory), (["bin", "stack"], .program)]⟩
  searchPath := [["bin"]]
  directory := ["bin"]
  tool := fun _ => b

def settings : Settings := { toolName := some "stack" }

def trigger : Trigger := ⟨.command, ⟨"/w"⟩, none⟩

def hanging : Behaviour := ⟨[], [], .runsOn⟩

def failing : Behaviour :=
  ⟨Utf8.encodeString "[[\"A\",1,0]]", [], .exits (.exited 0)⟩

def telling (text : String) : Machine :=
  machine ⟨Utf8.encodeString text, [], .exits (.exited 0)⟩

def problem (file : String) : Record := ⟨file, 1, 0, "", []⟩

end BuildWatch.Sample
