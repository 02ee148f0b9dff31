/-
Paths in the commands of the adb transport.  A handler puts a path between
double quotes and changes nothing in it, so the shell of the device finds the
path if it is literal text there, and only then.
-/
import Madbfs.Adb.Command
import Madbfs.Shell

namespace Madbfs

namespace Adb

/-- The shell leaves the key of a path as it is. -/
def Arg.isPlain : Arg → Bool
  | .word _ => true
  | .path key _ => key.all Shell.isPlain

section Survives

variable {localTime : Int64 → Str} {fdMap : UInt64 → Option Str}
  {request : Request} {cmd : Command} {key path : Str}

theorem touch_isPlain {time : Rpc.Timespec} {flag : String}
    (htouch : touch localTime path time flag = some cmd) :
    cmd.all Arg.isPlain := by
  rw [touch] at htouch
  split_ifs at htouch <;> cases htouch <;> rfl

theorem commands_isPlain (hcmd : cmd ∈ request.commands localTime fdMap) :
    cmd.all Arg.isPlain := by
  cases request with
  | rename source target flags =>
      rw [Request.commands, renameCommand] at hcmd
      split_ifs at hcmd
      · cases hcmd
      · rw [List.mem_singleton.mp hcmd]
        rfl
      · rw [List.mem_singleton.mp hcmd]
        rfl
  | utimens path atime mtime =>
      obtain ⟨⟨time, flag⟩, -, htouch⟩ := List.mem_filterMap.mp hcmd
      exact touch_isPlain htouch
  | read fd offset size =>
      obtain ⟨path, -, rfl⟩ := List.mem_map.mp hcmd
      rfl
  | write fd offset =>
      obtain ⟨path, -, rfl⟩ := List.mem_map.mp hcmd
      rfl
  | «open» path => cases hcmd
  | close fd => cases hcmd
  | _ =>
      rw [List.mem_singleton.mp hcmd]
      rfl

/-- The word that the shell makes of a path is the path behind its key, exactly
if the path is literal between double quotes. -/
theorem survives_iff (hcmd : cmd ∈ request.commands localTime fdMap)
    (harg : .path key path ∈ cmd) :
    Shell.fields (Arg.path key path).text = some [key ++ path] ↔
      Shell.Literal path := by
  have hkey : key.all Shell.isPlain :=
    List.all_eq_true.mp (commands_isPlain hcmd) _ harg
  have hfields : Shell.fields (key ++ Shell.doubleQuote :: path ++
      [Shell.doubleQuote]) = some [key ++ path] ↔ Shell.Literal path :=
    Shell.fields_quotation_iff hkey
  rw [List.append_assoc] at hfields
  exact hfields

end Survives

/-- A blank, a single quote, and a dollar and a backslash that are nothing to
the shell. -/
def plainPath : Str :=
  "/sdcard/it's 5$ a\x5cb".toList

theorem plainPath_mem : [word "adb", word "shell", word "rm",
    quoted plainPath] ∈ (Request.unlink plainPath).commands (fun _ => [])
      fun _ => none :=
  List.mem_singleton_self _

theorem literal_plainPath : Shell.Literal plainPath := by
  decide

theorem survives_iff_plain :
    Shell.fields (Arg.path [] plainPath).text = some [[] ++ plainPath] := by
  have hmem : Arg.path [] plainPath ∈ [word "adb", word "shell", word "rm",
      quoted plainPath] :=
    List.mem_of_getLast? rfl
  exact (survives_iff plainPath_mem hmem).mpr literal_plainPath

/-- Double quotes in a path are lost, and a substitution is one. -/
theorem quotes_are_lost :
    (Request.unlink "/a\x22b\x22c".toList).commands (fun _ => [])
        (fun _ => none) = [[word "adb", word "shell", word "rm",
          quoted "/a\x22b\x22c".toList]] ∧
    Shell.fields (quoted "/a\x22b\x22c".toList).text =
      some ["/abc".toList] ∧
    Shell.fields (quoted "/$(id)".toList).text = none := by
  refine ⟨rfl, ?_, ?_⟩ <;> decide

end Adb

end Madbfs
