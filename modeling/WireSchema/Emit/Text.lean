import WireSchema.Emit.Module
import WireSchema.Text.Quoted

/-!
# The text of emitted modules

The lines of a module in order: imports, the runtime, a class for each record, the classes of each
union with its table of variants, and the codecs. A runtime whose name has no dot is a folder beside
the module, which is put on the search path while it is imported.
-/

namespace WireSchema

/-- The folder that holds the runtime, if no other is asked for. -/
def defaultRuntime : String := "bytecoding_runtime"

namespace Module

def isLocal (runtime : String) : Bool := !runtime.toList.contains '.'

def importLines (m : Module) : List String :=
  ["\"\"\"Generated by bytecoding. Do not edit.\"\"\"", "", "from __future__ import annotations", ""]
    ++ (if isLocal m.runtime then ["import sys"] else [])
    ++ ["from dataclasses import dataclass"]
    ++ (if isLocal m.runtime then ["from pathlib import Path"] else [])
    ++ m.hookModules.map ("import " ++ ·)

private def runtimeImport (margin runtime : String) : List String :=
  [margin ++ "from " ++ runtime ++ " import ("]
    ++ runtimeNames.map (fun n => margin ++ "    " ++ n ++ ",")
    ++ [margin ++ ")"]

def runtimeLines (m : Module) : List String :=
  if isLocal m.runtime then
    ["_runtime_path = str(Path(__file__).resolve().parent)",
      "_added_to_path = _runtime_path not in sys.path", "if _added_to_path:",
      "    sys.path.insert(0, _runtime_path)", "try:"]
      ++ runtimeImport "    " m.runtime
      ++ ["finally:", "    if _added_to_path:", "        sys.path.remove(_runtime_path)"]
  else runtimeImport "" m.runtime

/-- The lines of a body, further in than the method they belong to. A line without any text stays
so. -/
def bodyLines (body : List Statement) : List String :=
  (Text.segments '\n' (Statement.bodyText body).toList).map fun cs =>
    if cs.isEmpty then "" else "        " ++ String.ofList cs

private def hintLines (fields : Hints) : List String :=
  fields.map fun f => "    " ++ f.1 ++ ": " ++ f.2

private def method (name type : String) (body : List Statement) : List String :=
  ["    @classmethod",
    "    def " ++ name ++ "(cls, _data: memoryview) -> tuple[" ++ type ++ ", memoryview]:"]
    ++ bodyLines body

def recordLines (r : RecordClass) : List String :=
  ["@dataclass", "class " ++ r.name ++ "(Record):"] ++ hintLines r.fields
    ++ ["    def encode_to_buf(self, _buf: bytearray) -> None:"] ++ bodyLines r.encode
    ++ [""] ++ method "_decode" r.name r.decode
    ++ match r.default? with
      | none => []
      | some fields =>
        ["    @classmethod", "    def default(cls) -> " ++ r.name ++ ":",
          "        return " ++ Statement.construction fields]

def variantLines (union : String) (v : VariantClass) : List String :=
  ["@dataclass", "class " ++ v.className ++ "(" ++ union ++ "):",
    "    __qualname__ = \"" ++ union ++ "." ++ v.name ++ "\"", "    _tag = " ++ toString v.tag,
    "    _tag_bytes = " ++ Text.quotedBytes v.tagBytes]
    ++ hintLines v.fields
    ++ ["    def _encode_fields(self, _buf: bytearray) -> None:"] ++ bodyLines v.encode
    ++ [""] ++ method "_decode_fields" union v.decode

def unionLines (u : UnionClass) : List String :=
  ["class " ++ u.name ++ "(Union):", "    def encode_to_buf(self, _buf: bytearray) -> None:"]
    ++ bodyLines u.encode ++ [""] ++ method "_decode" u.name u.decode
    ++ u.variants.flatMap (variantLines u.name)
    ++ u.variants.map (fun v => u.name ++ "." ++ v.name ++ " = " ++ v.className)
    ++ [u.name ++ "._variants = \x7b"]
    ++ u.variants.map (fun v => "    " ++ toString v.tag ++ ": " ++ v.className ++ ",")
    ++ ["\x7d"]

def textLines (m : Module) : List String :=
  m.importLines ++ m.runtimeLines ++ m.records.flatMap recordLines
    ++ m.unions.flatMap unionLines
    ++ m.codecs.map fun c => c.1 ++ " = " ++ c.2.expression

def text (m : Module) : String := String.join (m.textLines.map (· ++ "\n"))

end Module

def Layout.moduleText (S : Layout) (runtime : String) : String := (S.emitted runtime).text

end WireSchema
