import PointCloud.Document.Decode
import PointCloud.Document.Write
import PointCloud.Schema.Basic

/-!
# Schema documents

A schema is described by a document: an identifier, a spatial reference, a byte order, and a record
for every dimension. A dimension without a position takes the place it has in the list. The
description is read without checking that it makes a schema.
-/

namespace PointCloud

/-! ## Names in documents -/

namespace ByteOrder

/-- The name used in documents. -/
def keyword : ByteOrder → String
  | big => "big"
  | little => "little"

/-- The byte order of a document name. -/
def ofKeyword? (s : String) : Option ByteOrder :=
  [big, little].find? fun order => order.keyword == s

end ByteOrder

/-! ## Descriptions -/

/-- The record of one dimension. -/
structure DimensionDescription where
  name : String
  description : Option String
  position : Option Nat
  interpretation : Interpretation
  scale : Binary64
  offset : Binary64
  deriving DecidableEq, Repr

/-- The document of a schema. -/
structure SchemaDescription where
  pcid : UInt32
  srid : Int
  order : ByteOrder
  dimensions : List DimensionDescription
  deriving DecidableEq, Repr

namespace DimensionDescription

/-- The dimension of a record at place `index` of the list. -/
def dimension (d : DimensionDescription) (index : Nat) : Dimension where
  name := d.name
  description := d.description
  position := d.position.getD index
  interpretation := d.interpretation
  scale := d.scale
  offset := d.offset

/-- Reads a record. -/
def read? (document : Document) : Option DimensionDescription := do
  match ← document.record?
      ["name", "description", "position", "interpretation", "scale", "offset"] with
  | [name, description, position, interpretation, scale, offset] =>
    return {
      name := ← Document.required? Document.text? name
      description := ← Document.defaulted? none (Document.optional? Document.text?) description
      position := ← Document.defaulted? none (Document.optional? (Document.natural? 64)) position
      interpretation :=
        ← Document.required? (Document.plainChoice? Interpretation.ofKeyword?) interpretation
      scale := ← Document.defaulted? .one Document.float? scale
      offset := ← Document.defaulted? (.zero false) Document.float? offset }
  | _ => none

/-- Writes a record. -/
def text (d : DimensionDescription) : String :=
  Document.ofMembers [
    ("name", Document.ofText d.name),
    ("description", Document.ofOption Document.ofText d.description),
    ("position", Document.ofOption toString d.position),
    ("interpretation", Document.ofText d.interpretation.keyword),
    ("scale", Document.ofFloat d.scale),
    ("offset", Document.ofFloat d.offset)]

end DimensionDescription

namespace SchemaDescription

/-- Reads the tree of a document. -/
def read? (document : Document) : Option SchemaDescription := do
  match ← document.record? ["pcid", "srid", "endian", "dimensions"] with
  | [pcid, srid, order, dimensions] =>
    return {
      pcid := UInt32.ofNat (← Document.required? (Document.natural? 32) pcid)
      srid := ← Document.defaulted? 0 (Document.signed? 32) srid
      order := ← Document.defaulted? .little (Document.plainChoice? ByteOrder.ofKeyword?) order
      dimensions := ← Document.required? (Document.list? DimensionDescription.read?) dimensions }
  | _ => none

/-- Reads the text of a document. -/
def read (text : String) : Except Error SchemaDescription := Document.read read? text

/-- Writes a document. -/
def text (s : SchemaDescription) : String :=
  Document.ofMembers [
    ("pcid", toString s.pcid),
    ("srid", toString s.srid),
    ("endian", Document.ofText s.order.keyword),
    ("dimensions", Document.ofItems (s.dimensions.map DimensionDescription.text))]

/-- The schema that a description makes. -/
def schema (s : SchemaDescription) : Except Error Schema :=
  Schema.make s.pcid s.srid s.order (s.dimensions.mapIdx fun index d => d.dimension index)

end SchemaDescription

/-! ## Schemas in documents -/

namespace Schema

/-- Writes a dimension of a schema, with the place of its word. -/
def dimensionText (s : Schema) (d : Dimension) : String :=
  let description :=
    match d.description with
    | some text => [("description", Document.ofText text)]
    | none => []
  Document.ofMembers (
    [("name", Document.ofText d.name)] ++ description ++ [
    ("position", toString d.position),
    ("interpretation", Document.ofText d.interpretation.keyword),
    ("scale", Document.ofFloat d.scale),
    ("offset", Document.ofFloat d.offset),
    ("size", toString d.size),
    ("byte_offset", toString (s.byteOffset d.position))])

/-- Writes a schema with its layout and its axes. -/
def text (s : Schema) : String :=
  Document.ofMembers [
    ("pcid", toString s.pcid),
    ("srid", toString s.srid),
    ("endian", Document.ofText s.order.keyword),
    ("dimensions", Document.ofItems (s.dimensions.map s.dimensionText)),
    ("size", toString s.size),
    ("x_position", Document.ofOption toString (s.axis? 'x')),
    ("y_position", Document.ofOption toString (s.axis? 'y')),
    ("z_position", Document.ofOption toString (s.axis? 'z'))]

end Schema

end PointCloud
