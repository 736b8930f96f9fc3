import DesignSystem.Manifest
import DesignSystem.Yaml.Decode

/-! Manifests in YAML. This reader knows the part of the format that manifests are commonly written
in: collections in both styles, and scalars that are plain or quoted. -/

namespace DesignSystem

namespace Manifest

/-- Puts an entry in its place among sorted ones. It replaces an entry of its name. -/
def enter (name : String) (width : Nat) : List (String × Nat) → List (String × Nat)
  | [] => [(name, width)]
  | e :: rest =>
    if name = e.1 then (name, width) :: rest
    else if name < e.1 then (name, width) :: e :: rest
    else e :: enter name width rest

def sorted (entries : List (String × Nat)) : List (String × Nat) :=
  entries.foldl (fun done e => enter e.1 e.2 done) []

/-- What a field says, or `absent` if there is no such field. A field is given once at most. -/
def field? {α : Type} (fields : List (String × Yaml.Node)) (name : String)
    (read : Yaml.Node → Option α) (absent : α) : Option α :=
  match fields.filter (·.1 == name) with
  | [] => some absent
  | [field] => read field.2
  | _ => none

def width? (n : Yaml.Node) : Option Nat :=
  n.nat?.filter (· ≤ Widths.limit)

def breakpoints? (n : Yaml.Node) : Option (List (String × Nat)) := do
  let entries ← n.entries?
  return sorted (← entries.mapM fun e => (width? e.2).map (e.1, ·))

/-- The manifest that a document holds. Other fields are passed over. -/
def ofNode? (root : Yaml.Node) : Option Manifest := do
  let fields ← root.entries?
  return {
    sources := ← field? fields "sources" Yaml.Node.texts? standard.sources
    output := ← field? fields "output" (fun n => n.text?.map Path.mk) standard.output
    excludes := ←
      field? fields "excludes" (fun n => n.texts?.map (·.map Pattern.mk)) standard.excludes
    pretty := ← field? fields "pretty" Yaml.Node.bool? standard.pretty
    breakpoints := ← field? fields "breakpoints" breakpoints? standard.breakpoints }

end Manifest

instance : ManifestReader where
  manifest? text := (Yaml.Node.ofText? text).bind Manifest.ofNode?

end DesignSystem
