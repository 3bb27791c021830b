import Mathlib.Algebra.GroupWithZero.Nat
import N3ur0n.Json
import N3ur0n.Lib.Cut
import N3ur0n.Planner.Reference

/-!
# The names of blobs

A blob is found by its hash; its path is only a name to show. The name that a
peer chose for a result is sanitized (`sanitizeBlobPath`), and a result without
one gets a provisional name (`deriveOutputPath`), after its capability, the time
and its media type.
-/

namespace N3ur0n

/-- The control characters of Unicode. -/
def isControl (c : Char) : Bool := c.toNat < 32 || 127 ≤ c.toNat && c.toNat < 160

/-- Maximum length of a sanitized path, in bytes. -/
def maxBlobPathLen : ℕ := 255

/-- The length of a text, in bytes. -/
def utf8Len (s : List Char) : ℕ := (s.map Char.utf8Size).sum

/-- As many characters of the text as fit in `n` bytes. -/
def truncate : ℕ → List Char → List Char
  | _, [] => []
  | n, c :: cs => if c.utf8Size ≤ n then c :: truncate (n - c.utf8Size) cs else []

/-- A name to store and display, if something usable remains of it. -/
def sanitizeBlobPath (raw : String) : Option String :=
  let cleaned := (raw.toList.map fun c => if c = '\\' then '/' else c).filter (!isControl ·)
  let segments := ((cleaned.splitOn '/').map (Cut.trim isWhitespace)).filter fun seg =>
    seg ≠ [] ∧ seg ≠ ['.'] ∧ seg ≠ ['.', '.']
  if segments = [] then none else
    let out := ['/'].intercalate segments
    if maxBlobPathLen < utf8Len out then
      let trimmed := Cut.trim isWhitespace ((truncate maxBlobPathLen out).rdropWhile (· = '/'))
      if trimmed = [] then none else some (String.ofList trimmed)
    else some (String.ofList out)

/-- The lower case of a character, among those that it matters for here: two
    letters outside of ASCII have a lower case in it. -/
def lowercase (c : Char) : List Char :=
  match c.toNat with
  | 0x130 => ['i', Char.ofNat 0x307]
  | 0x212A => ['k']
  | _ => [c.toLower]

def knownExtensions : List (String × String) :=
  [("text/plain", "txt"), ("text/markdown", "md"), ("text/csv", "csv"), ("text/html", "html"),
    ("application/json", "json"), ("application/pdf", "pdf"), ("application/zip", "zip"),
    ("image/jpeg", "jpg"), ("image/png", "png"), ("image/gif", "gif"), ("image/webp", "webp"),
    ("image/svg+xml", "svg"), ("audio/mpeg", "mp3"), ("audio/wav", "wav"), ("video/mp4", "mp4")]

/-- File extension for a blob of a media type. -/
def extensionForMime (mime : String) : String :=
  let mime := (Cut.trim isWhitespace (mime.toList.takeWhile (· ≠ ';'))).flatMap lowercase
  match knownExtensions.lookup (String.ofList mime) with
  | some ext => ext
  | none =>
    let subtype := (mime.rtakeWhile (· ≠ '/')).takeWhile (· ≠ '+')
    let cleaned := (subtype.filter (·.isAlphanum)).take 8
    if cleaned = [] then "bin" else String.ofList cleaned

/-- A date and a time of day. -/
structure DateTime where
  year : ℤ
  month : ℕ
  day : ℕ
  hour : ℕ
  minute : ℕ
  second : ℕ

/-- A number padded with zeros to some width, its sign included. -/
def padded (width : ℕ) (n : ℤ) : List Char :=
  let digits := (Nat.repr n.natAbs).toList
  if n < 0 then '-' :: List.replicate (width - 1 - digits.length) '0' ++ digits
  else List.replicate (width - digits.length) '0' ++ digits

/-- The date and time, as `YYYY-MM-DD-HHMMSS`. -/
def DateTime.stamp (t : DateTime) : List Char :=
  padded 4 t.year ++ '-' :: padded 2 t.month ++ '-' :: padded 2 t.day ++
    '-' :: padded 2 t.hour ++ padded 2 t.minute ++ padded 2 t.second

/-- Provisional path for a blob produced by a capability, when the date is known. -/
def deriveOutputPath (capability mime : String) (date : Option DateTime) : String :=
  let kept (c : Char) : Bool := c.isAlphanum || c = '.' || c = '-' || c = '_'
  let cap := (capability.toList.map fun c => if kept c then c else '-').take 64
  let cap := Cut.trim (fun c => c = '.' || c = '-' || c = '_') cap
  let cap := if cap = [] then "output".toList else cap
  let stamp := (date.map DateTime.stamp).getD "unknown".toList
  String.ofList (cap ++ '/' :: stamp ++ '.' :: (extensionForMime mime).toList)

example : sanitizeBlobPath "../../etc\\a//./b.txt" = some "etc/a/b.txt" := by decide

example : deriveOutputPath "a b" "Text/Plain; charset=utf-8" (some ⟨2026, 7, 4, 9, 5, 0⟩) =
    "a-b/2026-07-04-090500.txt" := by decide

end N3ur0n
