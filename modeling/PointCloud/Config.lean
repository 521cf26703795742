import PointCloud.Document.Decode
import PointCloud.Document.Write
import PointCloud.Scheme

/-!
# Configuration

A configuration says how patches are built: a profile that trades speed for size, the scheme used
when none is named, how finely points are grouped, whether statistics are kept, and compressor
levels that override those of the profile. Reading a patch never consults it.
-/

namespace PointCloud

/-- A trade between speed and size. -/
inductive Profile where
  /-- Column methods are guessed from run counts and shared bits. -/
  | fast
  /-- Every column method is tried. -/
  | balanced
  /-- Every column method is tried, at the highest levels. -/
  | highCompression
  deriving DecidableEq, Repr, Inhabited

namespace Profile

/-- The level of zlib streams. -/
def deflateLevel : Profile → Nat
  | fast => 1
  | balanced => 6
  | highCompression => 9

/-- The level of zstd streams. -/
def zstdLevel : Profile → Int
  | fast => 1
  | balanced => 3
  | highCompression => 19

/-- Whether every column method is tried. -/
def triesAll : Profile → Bool
  | fast => false
  | _ => true

/-- The name used in documents. -/
def keyword : Profile → String
  | fast => "fast"
  | balanced => "balanced"
  | highCompression => "high_compression"

/-- The profile of a document name. -/
def ofKeyword? (s : String) : Option Profile :=
  [fast, balanced, highCompression].find? fun p => p.keyword == s

/-- Reads the text of a document that names a profile. -/
def read (text : String) : Except Error Profile :=
  Document.read (Document.plainChoice? ofKeyword?) text

end Profile

/-- How patches are built. -/
structure Config where
  profile : Profile := .balanced
  defaultScheme : Scheme := .dimensional
  /-- The leading bits of every axis by which points are grouped. -/
  keyBits : Nat := 8
  keepStatistics : Bool := true
  zstdLevel? : Option Int := none
  deflateLevel? : Option Nat := none
  deriving DecidableEq, Repr, Inhabited

namespace Config

/-- The level of zstd streams. -/
def zstdLevel (c : Config) : Int := c.zstdLevel?.getD c.profile.zstdLevel

/-- The level of zlib streams, nine at most. -/
def deflateLevel (c : Config) : Nat := min (c.deflateLevel?.getD c.profile.deflateLevel) 9

/-- Reads the tree of a document. Every field may be missing. -/
def read? (document : Document) : Option Config := do
  match ← document.record? ["profile", "default_compression", "hierarchy_key_bits",
      "compute_stats", "zstd_level", "deflate_level"] with
  | [profile, scheme, keyBits, statistics, zstd, deflate] =>
    return {
      profile :=
        ← Document.defaulted? .balanced (Document.plainChoice? Profile.ofKeyword?) profile
      defaultScheme :=
        ← Document.defaulted? .dimensional (Document.plainChoice? Scheme.ofKeyword?) scheme
      keyBits := ← Document.defaulted? 8 (Document.natural? 8) keyBits
      keepStatistics := ← Document.defaulted? true Document.bool? statistics
      zstdLevel? := ← Document.defaulted? none (Document.optional? (Document.signed? 32)) zstd
      deflateLevel? :=
        ← Document.defaulted? none (Document.optional? (Document.natural? 32)) deflate }
  | _ => none

/-- Reads the text of a document. -/
def read (text : String) : Except Error Config := Document.read read? text

/-- Writes a document. -/
def text (c : Config) : String :=
  Document.ofMembers [
    ("profile", Document.ofText c.profile.keyword),
    ("default_compression", Document.ofText c.defaultScheme.keyword),
    ("hierarchy_key_bits", toString c.keyBits),
    ("compute_stats", Document.ofBool c.keepStatistics),
    ("zstd_level", Document.ofOption toString c.zstdLevel?),
    ("deflate_level", Document.ofOption toString c.deflateLevel?)]

end Config

end PointCloud
