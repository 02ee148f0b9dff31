/-
The commands that the handlers of the adb transport run on the device.  An
argument is fixed text, a number, or a path between double quotes, with a key in
front of it or without.
-/
import Madbfs.Common
import Madbfs.Numeral
import Madbfs.Rpc.Message

namespace Madbfs

namespace Adb

/-- `Str`.  A byte is a character, so that every byte string is one of these. -/
abbrev Str := List Char

/-- `quote`. -/
def quote (path : Str) : Str :=
  '"' :: path ++ ['"']

/-- An argument of a command; a path is a quoted one behind its key. -/
inductive Arg where
  | word (text : Str)
  | path (key path : Str)
deriving Repr, DecidableEq

def Arg.text : Arg → Str
  | .word text => text
  | .path key target => key ++ quote target

abbrev Command := List Arg

def word (text : String) : Arg :=
  .word text.toList

def quoted (path : Str) : Arg :=
  .path [] path

/-- The text of an integer. -/
def showInt (value : Int) : Str :=
  if value < 0 then '-' :: Numeral.write 10 value.natAbs
  else Numeral.write 10 value.natAbs

/-- `fmt::format` of a key and a number. -/
def keyed (key : String) (value : Int) : Arg :=
  .word (key.toList ++ showInt value)

/-- The requests, with what their handlers read of them. -/
inductive Request where
  | listdir (path : Str)
  | stat (path : Str)
  | readlink (path : Str)
  | mknod (path : Str)
  | mkdir (path : Str)
  | unlink (path : Str)
  | rmdir (path : Str)
  | rename (source target : Str) (flags : UInt32)
  | truncate (path : Str) (size : Int64)
  | utimens (path : Str) (atime mtime : Rpc.Timespec)
  | copyFileRange (inPath : Str) (inOffset : Int64) (outPath : Str)
      (outOffset : Int64) (size : UInt64)
  | open (path : Str)
  | close (fd : UInt64)
  | read (fd : UInt64) (offset : Int64) (size : Nat)
  | write (fd : UInt64) (offset : Int64)
deriving Repr, DecidableEq

def renameNoReplace : UInt32 := 1

def renameExchange : UInt32 := 2

/-- What `Rename` runs, if it is not asked for an exchange. -/
def renameCommand (source target : Str) (flags : UInt32) : Command :=
  if flags = renameNoReplace then
    [word "adb", word "shell", word "mv", word "-n", quoted source,
      quoted target]
  else [word "adb", word "shell", word "mv", quoted source, quoted target]

/-- `UTIME_NOW` and `UTIME_OMIT`. -/
def utimeNow : Int64 := 1073741823

def utimeOmit : Int64 := 1073741822

/-- The format that `Listdir` and `Stat` give to `stat`. -/
def statFormat : Arg :=
  word "'%f|%h|%s|%u|%g|%x|%y|%z|%n'"

/-- What `Utimens` runs for one of the two times.  `localTime` is the text of
the whole seconds, in the format `%Y%m%d%H%M.%S`. -/
def touch (localTime : Int64 → Str) (path : Str) (time : Rpc.Timespec)
    (flag : String) : Option Command :=
  if time.nsec = utimeOmit then none
  else if time.nsec = utimeNow then
    some [word "adb", word "shell", word "touch", word "-c", word flag,
      quoted path]
  else
    let t := localTime time.sec ++ showInt time.nsec.toInt
    some [word "adb", word "shell", word "touch", word "-c", word flag,
      word "-t", .word t, quoted path]

/-- The commands that `handle_req` runs, one after the other.  A descriptor is
looked up in `m_fd_map`. -/
def Request.commands (localTime : Int64 → Str)
    (fdMap : UInt64 → Option Str) : Request → List Command
  | .listdir path =>
      [[word "adb", word "shell", word "find", quoted path, word "-maxdepth",
        word "1", word "-exec", word "stat", word "-c", statFormat, word "{}",
        word "+"]]
  | .stat path =>
      [[word "adb", word "shell", word "stat", word "-c", statFormat,
        quoted path]]
  | .readlink path =>
      [[word "adb", word "shell", word "readlink", quoted path]]
  | .mknod path => [[word "adb", word "shell", word "touch", quoted path]]
  | .mkdir path => [[word "adb", word "shell", word "mkdir", quoted path]]
  | .unlink path => [[word "adb", word "shell", word "rm", quoted path]]
  | .rmdir path => [[word "adb", word "shell", word "rmdir", quoted path]]
  | .rename source target flags =>
      if flags = renameExchange then []
      else [renameCommand source target flags]
  | .truncate path size =>
      [[word "adb", word "shell", word "truncate", word "-s",
        .word (showInt size.toInt), quoted path]]
  | .utimens path atime mtime =>
      [(atime, "-a"), (mtime, "-m")].filterMap fun (time, flag) =>
        touch localTime path time flag
  | .copyFileRange inPath inOffset outPath outOffset size =>
      [[word "adb", word "shell", word "dd",
        word "iflag=skip_bytes,count_bytes", keyed "skip=" inOffset.toInt,
        keyed "count=" size.toNat, .path "if=".toList inPath,
        word "oflag=seek_bytes", word "conv=notrunc",
        keyed "seek=" outOffset.toInt, .path "of=".toList outPath]]
  | .open _ => []
  | .close _ => []
  | .read fd offset size =>
      (fdMap fd).toList.map fun path =>
        [word "adb", word "shell", word "dd",
          word "iflag=skip_bytes,count_bytes", keyed "skip=" offset.toInt,
          keyed "count=" size, .path "if=".toList path]
  | .write fd offset =>
      (fdMap fd).toList.map fun path =>
        [word "adb", word "shell", word "dd", word "oflag=seek_bytes",
          word "conv=notrunc", keyed "seek=" offset.toInt,
          .path "of=".toList path]

end Adb

end Madbfs
