import PlayXv6.Fs.Dir

/-
  Path resolution.

  A path is walked one component at a time from the current
  directory or the root.  A symbolic link on the way replaces
  the component by its target; at most `MAX_SYMLINK_HOPS`
  links are followed.

  Main declarations:
    * `namex`
    * `nameiFrom`, `nameiparentFrom`
-/

namespace PlayXv6

abbrev SLASH : UInt8 := 47

abbrev ROOTINO : Nat := 1

abbrev MAX_SYMLINK_HOPS : Nat := 40

/- A continuation byte of an encoded character. -/
def isCont (b : UInt8) : Bool := 0x80 ≤ b && b ≤ 0xBF

def validUtf8 : List UInt8 → Bool
  | [] => true
  | [a] => a < 0x80
  | [a, b] =>
    if a < 0x80 then validUtf8 [b]
    else 0xC2 ≤ a && a ≤ 0xDF && isCont b
  | [a, b, c] =>
    if a < 0x80 then validUtf8 [b, c]
    else if a ≤ 0xDF then
      0xC2 ≤ a && isCont b && validUtf8 [c]
    else
      a ≤ 0xEF && isCont b && isCont c && (a ≠ 0xE0 || 0xA0 ≤ b) && (a ≠ 0xED || b ≤ 0x9F)
  | a :: b :: c :: d :: rest =>
    if a < 0x80 then validUtf8 (b :: c :: d :: rest)
    else if a ≤ 0xDF then
      0xC2 ≤ a && isCont b && validUtf8 (c :: d :: rest)
    else if a ≤ 0xEF then
      isCont b && isCont c && (a ≠ 0xE0 || 0xA0 ≤ b) &&
        (a ≠ 0xED || b ≤ 0x9F) && validUtf8 (d :: rest)
    else
      a ≤ 0xF4 && isCont b && isCont c && isCont d &&
        (a ≠ 0xF0 || 0x90 ≤ b) && (a ≠ 0xF4 || b ≤ 0x8F) && validUtf8 rest

/- `path.trim_start_matches('/')` -/
def trimSlashes (path : Name) : Name := path.dropWhile fun b => b = SLASH

/- The first component and what follows its slash. -/
def splitPath (path : Name) : Name × Name :=
  let name := path.takeWhile fun b => b ≠ SLASH
  (name, path.drop (name.length + 1))

/- `path.starts_with('/')` -/
def isAbsolute (path : Name) : Bool := path.head? = some SLASH

-- Walking a Path

def readSymlinkBody (ip : Nat) : FsProg (Option Name) := do
  ilock ip
  let s ← call (.getState ip)
  let size := s.size.toNat
  if size = 0 ∨ 256 < size then
    iunlock ip
    pure none
  else
    let buf ← readi ip size 0
    iunlock ip
    if buf.length ≠ size then
      pure none
    else if validUtf8 buf then
      pure (some buf)
    else
      pure none

/-
  The walk until a symbolic link has to be followed; `follow`
  continues from the link's directory with the new path.
-/
def namexWalk (wantParent followLast : Bool) (follow : Option (Nat → Name →
      FsProg (Option (Nat × Option Name)))) : Nat → Nat → Name → FsProg (Option (Nat × Option Name))
  | 0, ip, _ => do
      call (.iput ip)
      pure none
  | fuel + 1, ip, path => do
      let path := trimSlashes path
      if path = [] then
        if wantParent then
          call (.iput ip)
          pure none
        else
          pure (some (ip, none))
      else
        let name := (splitPath path).1
        let rest := (splitPath path).2
        let isLast := trimSlashes rest = []
        ilock ip
        let s ← call (.getState ip)
        if s.typ ≠ T_DIR then
          iunlock ip
          call (.iput ip)
          pure none
        else if wantParent ∧ isLast then
          iunlock ip
          pure (some (ip, some name))
        else
          match ← dirlookup ip name with
          | none =>
            iunlock ip
            call (.iput ip)
            pure none
          | some next =>
            iunlock ip
            ilock next
            let n ← call (.getState next)
            iunlock next
            if n.typ = T_SYMLINK ∧ (¬isLast ∨ followLast) then
              match follow with
              | none =>
                call (.iput next)
                call (.iput ip)
                pure none
              | some go =>
                match ← readSymlinkBody next with
                | none =>
                  call (.iput next)
                  call (.iput ip)
                  pure none
                | some target =>
                  let spliced :=
                    if rest = [] then target
                    else target ++ SLASH :: rest
                  if isAbsolute spliced then
                    call (.iget ROOTINO)
                    call (.iput ip)
                    call (.iput next)
                    go ROOTINO spliced
                  else
                    call (.iput next)
                    go ip spliced
            else
              call (.iput ip)
              namexWalk wantParent followLast follow fuel
                next rest

/- The walk with `hops` more links to follow. -/
def namexFrom (wantParent followLast : Bool) :
    Nat → Nat → Name → FsProg (Option (Nat × Option Name))
  | 0, ip, path =>
    namexWalk wantParent followLast none (path.length + 1) ip path
  | hops + 1, ip, path =>
    namexWalk wantParent followLast (some (namexFrom wantParent followLast hops))
      (path.length + 1) ip path

/-
  Resolve `path` against `start`, whose reference is used up.
  An absolute path starts at the root and `start` is dropped
  at the end.
-/
def namex (start : Nat) (path : Name) (wantParent followLast : Bool) :
    FsProg (Option (Nat × Option Name)) := do
  if isAbsolute path then
    call (.iget ROOTINO)
    let r ← namexFrom wantParent followLast MAX_SYMLINK_HOPS
      ROOTINO path
    call (.iput start)
    pure r
  else
    namexFrom wantParent followLast MAX_SYMLINK_HOPS start path

/- Resolve a path, following a final link. -/
def nameiFrom (start : Nat) (path : Name) : FsProg (Option Nat) := do
  let r ← namex start path false true
  pure (r.map Prod.fst)

/- The directory of the last component, and its name. -/
def nameiparentFrom (start : Nat) (path : Name) : FsProg (Option (Nat × Name)) := do
  match ← namex start path true true with
  | some (ip, some name) => pure (some (ip, name))
  | some (ip, none) =>
    call (.iput ip)
    pure none
  | none => pure none

/- A reference to the current directory of process `p`, or to the root if it has none. -/
def startDir (p : Nat) : FsProg Nat := do
  match ← call (.getCwd p) with
  | some c => pure c
  | none =>
    call (.iget ROOTINO)
    pure ROOTINO

def resolvePath (p : Nat) (path : Name) : FsProg (Option Nat) := do
  let start ← startDir p
  nameiFrom start path

def nameiparentViaCwd (p : Nat) (path : Name) : FsProg (Option (Nat × Name)) := do
  let start ← startDir p
  nameiparentFrom start path

end PlayXv6
