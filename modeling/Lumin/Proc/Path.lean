import Lumin.Fs.Vfs

/-!
# Paths of system calls

A model of `strncpy_from_user` and `normalize_path` of `kernel/proc/syscall.c`,
and of the path that each system call hands to the VFS.  `temp` is the list of
its first `t_idx` bytes.
-/

namespace Lumin.Proc

open Lumin.Fs

def DOT : UInt8 := 46

/-- `sizeof(temp)`, and the size of the path buffers of the system calls. -/
def PATH_BUF : Nat := 256

/-- `sizeof(segment)`. -/
def SEGMENT_BUF : Nat := 64

/-- `strncpy_from_user` into a buffer of `max` bytes: a longer string is cut. -/
def strncpyFromUser (src : CStr) (max : Nat) : CStr := src.take (max - 1)

/-- Append to `temp` while `t_idx < sizeof(temp) - 1`. -/
def pushTemp (temp s : CStr) : CStr := temp ++ s.take (PATH_BUF - 1 - temp.length)

/-- The `..` case: `t_idx` goes back to the last slash, but not below one. -/
def popSegment (temp : CStr) : CStr :=
  if temp.length > 1 then
    match temp.reverse.dropWhile (· ≠ SLASH) with
    | _ :: c :: rest => (c :: rest).reverse
    | _ => temp.take 1
  else temp

/-- The case of an ordinary segment. -/
def pushSegment (temp segment : CStr) : CStr :=
  let temp :=
    if temp.length > 1 ∧ temp.getLast? ≠ some SLASH then pushTemp temp [SLASH] else temp
  pushTemp temp segment

/-- The loop over the input.  Every turn consumes at least one byte of it. -/
def normalizeSegments : Nat → CStr → CStr → CStr
  | 0, _, temp => temp
  | _ + 1, [], temp => temp
  | fuel + 1, c :: input, temp =>
    if c = SLASH then normalizeSegments fuel input temp
    else
      let segment := ((c :: input).takeWhile (· ≠ SLASH)).take (SEGMENT_BUF - 1)
      let rest := (c :: input).drop segment.length
      if segment = [DOT] then normalizeSegments fuel rest temp
      else if segment = [DOT, DOT] then normalizeSegments fuel rest (popSegment temp)
      else normalizeSegments fuel rest (pushSegment temp segment)

/-- `temp` before the loop for a relative path: `cwd` and a slash.  With an empty
`cwd` the code looks at the byte before `temp`, which is `stray`. -/
def cwdTemp (stray : UInt8) (cwd : CStr) : CStr :=
  let temp := cwd.take (PATH_BUF - 1)
  if temp.getLast?.getD stray ≠ SLASH then temp ++ [SLASH] else temp

/-- `normalize_path`. -/
def normalizePath (stray : UInt8) (cwd input : CStr) (maxLen : Nat) : CStr :=
  let temp :=
    match input with
    | c :: rest =>
      if c = SLASH then normalizeSegments rest.length rest [SLASH]
      else normalizeSegments input.length input (cwdTemp stray cwd)
    | [] => cwdTemp stray cwd
  temp.take (maxLen - 1)

/-- The path that `SYS_OPEN`, `SYS_STAT` and `SYS_READDIR` hand to the VFS. -/
def rawPath (p : CStr) : CStr := strncpyFromUser p PATH_BUF

/-- The path that `SYS_UNLINK`, `SYS_MKDIR`, `SYS_RMDIR`, `SYS_CHDIR` and `SYS_EXEC`
hand to the VFS. -/
def cwdPath (stray : UInt8) (cwd p : CStr) : CStr :=
  normalizePath stray cwd (strncpyFromUser p PATH_BUF) PATH_BUF

end Lumin.Proc
