import PrSearch.Lib.Utf8

/-! # Windows of a file

A file is read window by window. A window ends behind its last newline, or before an unfinished character,
and the next one starts where it has ended. The bytes come with what is known of the file, or as a window
of the blob.
-/
namespace PrSearch.Source.Files

abbrev Bytes := List UInt8

/-- `SOURCE_WINDOW_BYTES` -/
def sourceWindowBytes : Nat := 1024 * 1024

/-- `GITHUB_BLOB_MAX_BYTES` -/
def githubBlobMaxBytes : Nat := 100 * 1024 * 1024

/-! ### What is answered from outside -/

inductive ErrorKind
  | auth
  | notFound
  | other (kind : String)
  deriving DecidableEq

/-- An error of the API with its kind and status, or another one. -/
inductive UpstreamError
  | api (kind : ErrorKind) (status : Option Nat)
  | other (message : String)
  deriving DecidableEq

/-- `content`: the bytes of a content that is a string in base64. -/
structure SourceContent where
  type : String
  size : Nat
  sha : String
  encoding : Option String
  content : Option Bytes

structure RawWindow where
  bytes : Bytes
  eof : Bool

/-- The answers for one request. -/
structure Answers where
  contentObject : Except UpstreamError SourceContent
  commit : Except UpstreamError Unit
  aborted : Bool
  blobAt : Except UpstreamError (Option (Nat × String))
  blobWindow : Nat → Nat → Except UpstreamError RawWindow

/-- `range` is `SourceRangeError`. -/
inductive Failure
  | upstream (error : UpstreamError)
  | range (message : String)
  | error (message : String)
  deriving DecidableEq

inductive Status
  | text
  | missing
  | binary
  | tooLarge
  | unsupported
  deriving DecidableEq, Repr

structure SourceFile where
  status : Status
  text : Option (List Char)
  size : Option Nat
  sha : Option String
  reason : Option String
  offset : Nat
  nextOffset : Option Nat
  deriving DecidableEq

/-! ### The end of a window -/

def newline : UInt8 := 0x0a

def lastIndexOf (byte : UInt8) : Bytes → Option Nat
  | [] => none
  | own :: bytes =>
      match lastIndexOf byte bytes with
      | some i => some (i + 1)
      | none => if own = byte then some 0 else none

/-- Goes back over at most so many continuation bytes; what is left ends with the first other byte. -/
def skipContinuation (bytes : Bytes) : Nat → Nat → Nat
  | 0, rest => rest
  | _, 0 => 0
  | back + 1, rest + 1 =>
      if Utf8.isContinuation (bytes.getD rest 0) then skipContinuation bytes back rest else rest + 1

def utf8Boundary (bytes : Bytes) : Nat :=
  match skipContinuation bytes 3 bytes.length with
  | 0 => bytes.length
  | index + 1 =>
      let need := Utf8.width (bytes.getD index 0)
      if need ≤ bytes.length - index then bytes.length else index

/-! ### A window -/

def byteOrderMark : Char := Char.ofNat 0xfeff

/-- One mark at the start is left out, unless it is ignored. -/
def skipMark (ignoreBOM : Bool) : List Char → List Char
  | [] => []
  | first :: rest => if first = byteOrderMark ∧ ignoreBOM = false then rest else first :: rest

/-- `TextDecoder` with `fatal`. -/
def decodeText (ignoreBOM : Bool) (bytes : Bytes) : Option (List Char) :=
  (Utf8.decode bytes).map (skipMark ignoreBOM)

/-- `LFS_POINTER` -/
def lfsPointer : List Char := "version https://git-lfs.github.com/spec/v1".toList

/-- `/^[a-f0-9]{40}$/i` -/
def isFullSha (sha : String) : Bool :=
  sha.toList.length = 40 ∧ sha.toList.all fun c =>
    '0' ≤ c ∧ c ≤ '9' ∨ 'a' ≤ c ∧ c ≤ 'f' ∨ 'A' ≤ c ∧ c ≤ 'F'

def notAvailableText : String := "This path is not available at this revision."
def upstreamTooLarge : String := "GitHub does not serve files larger than 100 MB through its API."
def notRegularText : String := "This object is not a regular file."
def beyondText : String := "Offset is beyond the end of the file."
def boundaryText : String := "Offset must be a window boundary returned by the previous response."
def endedText : String := "Upstream blob ended before its declared size"
def blobText : String := "Invalid upstream blob"
def binaryText : String := "Binary files cannot be displayed as text."
def notUtf8Text : String := "This file is not UTF-8 text."
def lfsText : String := "Git LFS objects are not downloaded for source preview."

/-- What is answered when nothing is known of the file. -/
def withoutContent (answers : Answers) (base : SourceFile) (error : UpstreamError) :
    Except Failure SourceFile :=
  match error with
  | .api .notFound _ =>
      match answers.commit with
      | .error error => .error (.upstream error)
      | .ok () => .ok { base with reason := some notAvailableText }
  | .api .auth (some 403) =>
      if answers.aborted then .error (.upstream error)
      else
        match answers.blobAt with
        | .ok (some (size, sha)) =>
            if githubBlobMaxBytes < size then
              .ok { base with
                size := some size
                sha := some sha
                status := .tooLarge
                reason := some upstreamTooLarge }
            else .error (.upstream error)
        | .ok none => .error (.upstream error)
        | .error (.api .auth _) => .error (.upstream error)
        | .error (.api .notFound _) => .error (.upstream error)
        | .error walk => .error (.upstream walk)
  | _ => .error (.upstream error)

/-- The bytes from the offset on, and whether they are the last ones. -/
def windowBytes (answers : Answers) (content : SourceContent) (offset : Nat) :
    Except Failure RawWindow :=
  let inline_ := if content.encoding = some "base64" then content.content else none
  let fromBlob : Except Failure RawWindow :=
    if isFullSha content.sha = false then .error (.error blobText)
    else
      match answers.blobWindow offset sourceWindowBytes with
      | .error error => .error (.upstream error)
      | .ok window => .ok window
  match inline_ with
  | none => fromBlob
  | some bytes =>
      if bytes.length = content.size then
        .ok ⟨(bytes.drop offset).take sourceWindowBytes, offset + sourceWindowBytes ≥ bytes.length⟩
      else fromBlob

/-- The bytes of a window up to its end as text. -/
def decodeChunk (base : SourceFile) (chunk : Bytes) (next : Option Nat) : SourceFile :=
  if 0 ∈ chunk then { base with status := .binary, reason := some binaryText }
  else
    match decodeText (0 < base.offset) chunk with
    | none => { base with status := .binary, reason := some notUtf8Text }
    | some text =>
        if base.offset = 0 ∧ lfsPointer <+: text then
          { base with status := .unsupported, reason := some lfsText }
        else { base with status := .text, text := some text, nextOffset := next }

/-- Where a window ends that is not the last one. -/
def windowCut (bytes : Bytes) : Nat :=
  match lastIndexOf newline bytes with
  | some i => i + 1
  | none => utf8Boundary bytes

def decodeWindow (base : SourceFile) (window : RawWindow) (size : Nat) : Except Failure SourceFile :=
  let bytes := window.bytes
  if 0 < base.offset ∧ 0 < bytes.length ∧ Utf8.isContinuation (bytes.getD 0 0) then
    .error (.range boundaryText)
  else
    let end_ : Bool := size ≤ base.offset + bytes.length
    if window.eof && !end_ then .error (.error endedText)
    else
      let cut := if end_ then bytes.length else windowCut bytes
      .ok (decodeChunk base (bytes.take cut) (if end_ then none else some (base.offset + cut)))

def sourceFileWindow (answers : Answers) (offset : Nat) : Except Failure SourceFile :=
  let base : SourceFile := ⟨.missing, none, none, none, none, offset, none⟩
  match answers.contentObject with
  | .error error => withoutContent answers base error
  | .ok content =>
      let base := { base with size := some content.size, sha := some content.sha }
      if content.type ≠ "file" then
        .ok { base with status := .unsupported, reason := some notRegularText }
      else if githubBlobMaxBytes < content.size then
        .ok { base with status := .tooLarge, reason := some upstreamTooLarge }
      else if content.size < offset then .error (.range beyondText)
      else
        match windowBytes answers content offset with
        | .error failure => .error failure
        | .ok window => decodeWindow base window content.size

/-- Follows `next_offset`; the answers are those for the request at an offset. -/
def readWindows (answers : Nat → Answers) : Nat → Nat → List (Except Failure SourceFile)
  | 0, _ => []
  | fuel + 1, offset =>
      let result := sourceFileWindow (answers offset) offset
      match result with
      | .error _ => [result]
      | .ok file =>
          match file.nextOffset with
          | none => [result]
          | some next => result :: readWindows answers fuel next

end PrSearch.Source.Files
