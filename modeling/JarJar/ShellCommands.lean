import JarJar.ShellBuffers
import JarJar.ConsoleTranscript
import JarJar.ConsoleScan
import JarJar.JarvisAnswer

/- The commands of the shell. A line is taken apart, its first word is looked up in a table,
   and the handler of that entry is called with all of the words; a word that is not in the
   table is put to JARVIS as a question.

   Correspondence (C ↔ Lean):
     a call on the console                     ↔ `Call`, `Call.ops`
     the arguments behind a format             ↔ `Arg`, `varargs`
     `cmd_help` to `cmd_debug`                 ↔ `cmdHelp` to `cmdDebug`
     `shell_command_t`, `commands`             ↔ `ShellCommand`, `commands`
     `shell_execute`                           ↔ `shellExecute`
     `shell_init`                              ↔ `shellInit`
     `shell_run`                               ↔ `shellRun`, of any lines in place of `help`
     the body of its loop                      ↔ `shellTurn`
   A handler says which calls on the console it makes and what they leave of the rest of the
   program (`Reply`). `memory_get_info`, `jarvis_get_stats`, `jarvis_learn` and
   `jarvis_evolve` are declared and not defined: they are parameters (`Outside`). The arrays
   on the stack have their places, like the buffer of the shell, in a `Layout`. -/
namespace JarJar.ShellCommands
open Libc Vga Shell

/-- The bytes of a string literal. -/
def literal (s : String) : List U8 := s.toUTF8.data.toList.map UInt8.toBitVec

inductive Arg where
  | str (s : CStr)
  | int (v : U32)
  | long (v : U64)

/-- What the argument at `k` is passed as. The pointer to a string is its place, from 1 on. -/
def Arg.slot (k : Nat) : Arg → U64
  | .str _ => BitVec.ofNat 64 (k + 1)
  | .int v => v.setWidth 64
  | .long v => v

def Arg.string : Arg → CStr
  | .str s => s
  | _ => CStr.empty

/-- The arguments as a `va_list`. -/
def varargs (args : List Arg) : Args where
  slot k := (args[k]?.map (Arg.slot k)).getD 0
  string p := (args[p.toNat - 1]?.map Arg.string).getD CStr.empty

/-- The calls on the console that the shell makes. -/
inductive Call where
  | printf (format : String) (args : List Arg)
  | setColor (fg bg : VgaColor)
  | resetColor
  | clear
  | aiOutput
  | aiThinking

/-- What is wrong: a format, a store beside an array, an access through NULL, a string without
its NUL, a division by zero, a line without an end. -/
inductive Fault where
  | format (f : Vga.Fault)
  | outside
  | null
  | unterminated
  | divide
  | endless
  deriving DecidableEq

/-- The calls a call comes down to. -/
def Call.ops : Call → Except Fault (List Op)
  | .printf format args =>
    match formatText (varargs args) (literal format) 0 with
    | .ok text => .ok (text.map Op.putchar)
    | .error f => .error (.format f)
  | .setColor fg bg => .ok [.setColor fg bg]
  | .resetColor => .ok [.resetColor]
  | .clear => .ok [.clear]
  | .aiOutput => .ok [.aiOutput]
  | .aiThinking => .ok [.aiThinking]

def allOps : List Call → Except Fault (List Op)
  | [] => .ok []
  | call :: calls => do
    let ops ← call.ops
    let rest ← allOps calls
    return ops ++ rest

/-- A call of `console_printf` with nothing behind the format. -/
def say (format : String) : Call := .printf format []

def shellBufferSize : Nat := 4096

/-- Where the arrays are: `shell_buffer`, and on the stack of the command that runs its `query`
(or `content`) and its `response`. They share no byte. -/
structure Layout where
  shellBuffer : Nat
  query : Nat
  response : Nat
  buffer_query : shellBuffer + shellBufferSize ≤ query ∨ query + 1024 ≤ shellBuffer
  buffer_response : shellBuffer + shellBufferSize ≤ response ∨ response + 2048 ≤ shellBuffer
  query_response : query + 1024 ≤ response ∨ response + 2048 ≤ query

/-- The fields of a `mem_info_t`. -/
structure MemInfo where
  total : U64
  used : U64
  free : U64
  cached : U64
  buffers : U64
  aiReserved : U64

/-- The functions that are not there. -/
structure Outside where
  memoryGetInfo : MemInfo
  jarvisGetStats : CStr
  jarvisLearn : CStr → CStr → Jarvis.Machine → JarResult × Jarvis.Machine
  jarvisEvolve : Jarvis.Machine → JarResult × Jarvis.Machine

/-- What the shell works on beside the console. -/
structure Env where
  jarvis : Jarvis.Machine
  currentDirectory : CStr

def Env.mem (env : Env) : Memory := env.jarvis.mem

def Env.setMem (mem : Memory) (env : Env) : Env := { env with jarvis := { env.jarvis with mem } }

structure Reply where
  result : JarResult
  calls : List Call
  env : Env

theorem takeWhile_nonzero (bytes : List U8) : ∀ b ∈ bytes.takeWhile fun b => b ≠ 0, b ≠ 0 :=
  fun _ hb => of_decide_eq_true (List.mem_takeWhile_imp (p := fun b => decide (b ≠ 0)) hb)

/-- Some bytes up to the first NUL. -/
def toCStr (bytes : List U8) : CStr := ⟨bytes.takeWhile fun b => b ≠ 0, takeWhile_nonzero bytes⟩

/-- The bytes from `p` on up to a NUL among the first `n`. -/
def readString (m : Memory) : Nat → Nat → Option (List U8)
  | 0, _ => none
  | n + 1, p => if m.bytes p = 0 then some [] else (m.bytes p :: ·) <$> readString m n (p + 1)

def stringAt (m : Memory) (n p : Nat) : Except Fault CStr :=
  match readString m n p with
  | none => .error .unterminated
  | some bytes => .ok (toCStr bytes)

/-! ## Commands that only print -/

abbrev Handler := List CStr → Env → Except Fault Reply

/-- The handler makes the calls, whatever its arguments. -/
def prints (calls : List Call) : Handler := fun _ env => .ok ⟨.ok, calls, env⟩

/-- With fewer than `least` words there is a line on the usage instead. -/
def needs (least : Nat) (usage : String) (body : Handler) : Handler := fun argv env =>
  if argv.length < least then .ok ⟨.inval, [say usage], env⟩ else body argv env

/-- The argument in place `i`. -/
def nth (argv : List CStr) (i : Nat) : Arg := .str (argv.getD i CStr.empty)

def cmdHelp : Handler := prints
  [say "\n",
   .setColor .lightCyan .black,
   say "Available Commands:\n",
   say "===================\n\n",
   .resetColor,
   say "File Operations:\n",
   say "  ls, dir     - List directory contents\n",
   say "  cd          - Change directory\n",
   say "  pwd         - Print working directory\n",
   say "  cat, type   - Display file contents\n",
   say "  mkdir, md   - Create directory\n",
   say "  rm, del     - Remove files\n",
   say "  cp, copy    - Copy files\n",
   say "  mv, rename  - Move/rename files\n",
   say "  edit        - Edit a file\n",
   say "\n",
   say "System Information:\n",
   say "  ps          - List processes\n",
   say "  meminfo     - Memory information\n",
   say "  cpuinfo     - CPU information\n",
   say "  diskinfo    - Disk information\n",
   say "  netinfo     - Network information\n",
   say "  uptime      - System uptime\n",
   say "  status      - System status\n",
   say "  version     - Version information\n",
   say "\n",
   say "Network:\n",
   say "  ifconfig    - Configure network\n",
   say "  ping        - Test network connectivity\n",
   say "\n",
   say "JARVIS AI:\n",
   say "  jarvis, ai  - Interact with JARVIS\n",
   say "  learn       - Teach JARVIS\n",
   say "  think       - Ask JARVIS to analyze\n",
   say "  evolve      - Trigger self-evolution\n",
   say "  search      - Search the web\n",
   say "\n",
   say "Development:\n",
   say "  compile     - Compile source code\n",
   say "  debug       - Debug mode\n",
   say "\n",
   say "System Control:\n",
   say "  clear       - Clear screen\n",
   say "  echo        - Display text\n",
   say "  date        - Display date/time\n",
   say "  reboot      - Reboot system\n",
   say "  shutdown    - Shut down system\n",
   say "\n"]

def cmdClear : Handler := prints [.clear]

def cmdEcho : Handler := fun argv env =>
  .ok ⟨.ok, (argv.drop 1).map (fun arg => .printf "%s " [.str arg]) ++ [say "\n"], env⟩

def cmdLs : Handler := fun _ env => .ok ⟨.ok,
  [.printf "Directory listing of %s:\n" [.str env.currentDirectory],
   say "\n",
   say "drwxr-xr-x  2 root root  4096 Jan  1 00:00 .\n",
   say "drwxr-xr-x  2 root root  4096 Jan  1 00:00 ..\n",
   say "drwxr-xr-x  2 root root  4096 Jan  1 00:00 bin\n",
   say "drwxr-xr-x  2 root root  4096 Jan  1 00:00 boot\n",
   say "drwxr-xr-x  2 root root  4096 Jan  1 00:00 dev\n",
   say "drwxr-xr-x  2 root root  4096 Jan  1 00:00 etc\n",
   say "drwxr-xr-x  2 root root  4096 Jan  1 00:00 home\n",
   say "drwxr-xr-x  2 root root  4096 Jan  1 00:00 lib\n",
   say "drwxr-xr-x  2 root root  4096 Jan  1 00:00 proc\n",
   say "drwxr-xr-x  2 root root  4096 Jan  1 00:00 root\n",
   say "drwxr-xr-x  2 root root  4096 Jan  1 00:00 sys\n",
   say "drwxr-xr-x  2 root root  4096 Jan  1 00:00 tmp\n",
   say "drwxr-xr-x  2 root root  4096 Jan  1 00:00 usr\n",
   say "drwxr-xr-x  2 root root  4096 Jan  1 00:00 var\n"], env⟩

/-- `"/"`. -/
def rootDirectory : CStr := ⟨[ch '/'], by decide⟩

/-- Only to the root does it change. -/
def cmdCd : Handler := fun argv env =>
  if argv.length < 2 then .ok ⟨.ok, [], { env with currentDirectory := rootDirectory }⟩
  else .ok ⟨.ok, [.printf "Changed directory to: %s\n" [nth argv 1]], env⟩

def cmdPwd : Handler := fun _ env => .ok ⟨.ok, [.printf "%s\n" [.str env.currentDirectory]], env⟩

def cmdCat : Handler := needs 2 "Usage: cat <file>\n" fun argv =>
  prints
    [.printf "Contents of %s:\n" [nth argv 1],
     say "\n",
     say "[File contents would be displayed here]\n"] argv

def cmdMkdir : Handler := needs 2 "Usage: mkdir <directory>\n" fun argv =>
  prints [.printf "Created directory: %s\n" [nth argv 1]] argv

def cmdRm : Handler := needs 2 "Usage: rm <file>\n" fun argv =>
  prints [.printf "Removed: %s\n" [nth argv 1]] argv

def cmdCp : Handler := needs 3 "Usage: cp <source> <destination>\n" fun argv =>
  prints [.printf "Copied %s to %s\n" [nth argv 1, nth argv 2]] argv

def cmdMv : Handler := needs 3 "Usage: mv <source> <destination>\n" fun argv =>
  prints [.printf "Moved %s to %s\n" [nth argv 1, nth argv 2]] argv

def cmdPs : Handler := prints
  [say "PID   PPID  USER  STAT  CPU%%  MEM%%  NAME\n",
   say "----  ----  ----  ----  ----  ----  ----------------\n",
   say "  1     0  root  R     0.1   2.5   init\n",
   say "  2     1  root  S     0.0   1.2   kthreadd\n",
   say "  3     2  root  S     0.0   0.8   kworker/0:0\n",
   say "  4     1  root  R     5.2   8.5   jarvis_main\n",
   say "  5     1  root  S     2.1   4.2   jarvis_learn\n",
   say "  6     1  root  S     0.5   1.8   jarvis_web\n",
   say "  7     1  root  S     0.0   0.5   shell\n"]

def cmdKill : Handler := needs 2 "Usage: kill <pid>\n" fun argv =>
  prints [.printf "Killed process %s\n" [nth argv 1]] argv

def cmdCpuinfo : Handler := prints
  [say "CPU Information:\n",
   say "================\n",
   say "Architecture: x86_64\n",
   say "Model:        JARVIS-Optimized Processor\n",
   say "Cores:        4\n",
   say "Threads:      8\n",
   say "Frequency:    3.5 GHz\n",
   say "Cache L1:     64 KB\n",
   say "Cache L2:     512 KB\n",
   say "Cache L3:     8 MB\n",
   say "\n",
   say "Features: SSE, SSE2, SSE3, SSSE3, SSE4.1, SSE4.2, AVX, AVX2\n"]

def cmdDiskinfo : Handler := prints
  [say "Disk Information:\n",
   say "=================\n",
   say "Filesystem      Size  Used  Avail  Use%%  Mounted on\n",
   say "JARFS            10G  2.5G   7.5G   25%%  /\n",
   say "tmpfs           512M   12M   500M    3%%  /tmp\n",
   say "devtmpfs        256M    0M   256M    0%%  /dev\n"]

def cmdNetinfo : Handler := prints
  [say "Network Information:\n",
   say "===================\n",
   say "Interface: eth0\n",
   say "  MAC:       00:1A:2B:3C:4D:5E\n",
   say "  IP:        192.168.1.100\n",
   say "  Netmask:   255.255.255.0\n",
   say "  Gateway:   192.168.1.1\n",
   say "  DNS:       8.8.8.8\n",
   say "  Status:    UP\n",
   say "\n",
   say "RX packets: 123456  bytes: 123456789\n",
   say "TX packets: 98765   bytes: 98765432\n"]

def cmdPing : Handler := needs 2 "Usage: ping <host>\n" fun argv =>
  prints
    ([.printf "PING %s (192.168.1.1):\n" [nth argv 1]] ++
      (List.range 4).map (fun i =>
        .printf "Reply from 192.168.1.1: bytes=32 time=%dms TTL=64\n"
          [.int (BitVec.ofNat 32 (i * 10 + 1))]) ++
      [say "\nPing statistics:\n",
       say "  Packets: Sent = 4, Received = 4, Lost = 0 (0%% loss)\n"]) argv

def cmdIfconfig : Handler := cmdNetinfo

def cmdDate : Handler := prints [say "Thu Jan  1 00:00:00 UTC 2024\n"]

def cmdUptime : Handler := prints
  [say " 00:15:32 up 0 days, 0:15, 1 user, load average: 0.52, 0.48, 0.35\n"]

def cmdReboot : Handler := prints [say "System is going down for reboot NOW!\n"]

def cmdShutdown : Handler := prints [say "System is going down for halt NOW!\n"]

def cmdThink : Handler := prints
  [.aiThinking,
   say "[JARVIS] Analyzing current system state...\n",
   say "[JARVIS] Processing available data...\n",
   say "[JARVIS] Formulating insights...\n",
   .resetColor,
   .aiOutput,
   say "[JARVIS] Analysis complete. System is operating optimally.\n",
   say "[JARVIS] I suggest reviewing the system status with 'status' command.\n",
   .resetColor]

def cmdVersion : Handler := prints
  [say "\n",
   .setColor .lightCyan .black,
   say "JARJARVIS Operating System\n",
   say "==========================\n",
   say "Version:     1.0.0\n",
   say "Build:       2024.01.01\n",
   say "Codename:    \"Genesis\"\n",
   say "\n",
   say "Kernel:      JARVIS-Core 1.0.0\n",
   say "Architecture: x86_64\n",
   say "Compiler:    GCC 12.0\n",
   say "\n",
   say "Copyright (c) 2024 JARJARVIS Project\n",
   say "All rights reserved.\n",
   .resetColor,
   say "\n"]

def cmdEdit : Handler := needs 2 "Usage: edit <file>\n" fun argv =>
  prints
    [.printf "Opening editor for: %s\n" [nth argv 1],
     say "[Text editor would open here]\n"] argv

def cmdCompile : Handler := needs 2 "Usage: compile <source_file>\n" fun argv =>
  prints
    [.printf "Compiling: %s\n" [nth argv 1],
     say "[Compilation would proceed here]\n",
     say "Build successful!\n"] argv

def cmdDebug : Handler := prints
  [say "Debug mode activated.\n",
   say "Available debug commands:\n",
   say "  - dump_memory    : Dump memory regions\n",
   say "  - dump_processes : Dump process table\n",
   say "  - dump_interrupts: Dump interrupt stats\n",
   say "  - trace_syscalls : Trace system calls\n"]

/-! ## Commands that ask the rest of the system -/

section
variable (out : Outside) (place : Layout)

def mb : U64 := 1024 * 1024

def cmdMeminfo : Handler := fun _ env =>
  let info := out.memoryGetInfo
  if info.total = 0 then .error .divide
  else .ok ⟨.ok,
    [say "Memory Information:\n",
     say "===================\n",
     .printf "Total:      %8lu MB\n" [.long (info.total / mb)],
     .printf "Used:       %8lu MB\n" [.long (info.used / mb)],
     .printf "Free:       %8lu MB\n" [.long (info.free / mb)],
     .printf "Cached:     %8lu MB\n" [.long (info.cached / mb)],
     .printf "Buffers:    %8lu MB\n" [.long (info.buffers / mb)],
     .printf "AI Reserved:%8lu MB\n" [.long (info.aiReserved / mb)],
     say "\n",
     .printf "Usage: %lu%%\n" [.long (info.used * 100 / info.total)]], env⟩

def cmdStatus : Handler := fun _ env =>
  let info := out.memoryGetInfo
  if info.total = 0 then .error .divide
  else .ok ⟨.ok,
    [say "\n",
     .setColor .lightCyan .black,
     say "╔══════════════════════════════════════════════════════════════╗\n",
     say "║                    JARJARVIS SYSTEM STATUS                   ║\n",
     say "╚══════════════════════════════════════════════════════════════╝\n",
     .resetColor,
     say "\n",
     say "Version:     JARJARVIS 1.0.0 (Build 2024)\n",
     say "Kernel:      JARVIS-Core x86_64\n",
     say "Uptime:      0 days, 0:15:32\n",
     say "\n",
     say "CPU:         4 cores @ 3.5 GHz\n",
     say "CPU Usage:   12%%\n",
     say "\n",
     .printf "Memory:      %lu MB / %lu MB (%lu%%)\n"
       [.long (info.used / mb), .long (info.total / mb), .long (info.used * 100 / info.total)],
     say "\n",
     .printf "%s\n" [.str out.jarvisGetStats],
     say "\n",
     .setColor .lightGreen .black,
     say "All systems operational.\n",
     .resetColor], env⟩

def cmdEvolve : Handler := fun _ env =>
  let (result, jarvis) := out.jarvisEvolve env.jarvis
  .ok ⟨result,
    [.aiOutput,
     say "[JARVIS] Initiating self-evolution sequence...\n",
     .resetColor], { env with jarvis }⟩

/-- `jarvis_process_input(query, response, size)`, and what stands in `response` then. -/
def ask (query : CStr) (size : U64) (env : Env) : Except Fault (CStr × Env) :=
  match Jarvis.jarvisProcessInput query place.response size env.jarvis with
  | none => .error .null
  | some (_, jarvis) => do
    let answer ← stringAt jarvis.mem size.toNat place.response
    return (answer, { env with jarvis })

/-- The arguments put together in `query`. -/
def gather (command : Nat → Nat → List CStr → Memory → Except Libc.Fault Memory) (argv : List CStr)
    (env : Env) : Except Fault (CStr × Env) :=
  match command 1024 place.query argv env.mem with
  | .error _ => .error .outside
  | .ok mem => do
    let text ← stringAt mem 1024 place.query
    return (text, env.setMem mem)

def cmdJarvis : Handler := fun argv env =>
  if argv.length < 2 then .ok ⟨.ok,
    [.aiOutput, say "[JARVIS] Yes? How can I assist you?\n", .resetColor], env⟩
  else do
    let (query, env) ← gather place Shell.cmdJarvis argv env
    let (response, env) ← ask place query 2048 env
    return ⟨.ok, [.aiOutput, .printf "[JARVIS] %s\n" [.str response], .resetColor], env⟩

def cmdLearn : Handler := needs 3 "Usage: learn <topic> <content>\n" fun argv env => do
  let (content, env) ← gather place Shell.cmdLearn argv env
  let topic := argv.getD 1 CStr.empty
  let (result, jarvis) := out.jarvisLearn topic content env.jarvis
  return ⟨result,
    if result = .ok then
      [.aiOutput, .printf "[JARVIS] I have learned about '%s'.\n" [.str topic], .resetColor]
    else [], { env with jarvis }⟩

def cmdSearch : Handler := needs 2 "Usage: search <query>\n" fun argv env => do
  let (query, env) ← gather place Shell.cmdSearch argv env
  return ⟨.ok,
    [.aiOutput,
     .printf "[JARVIS] Searching for: %s\n" [.str query],
     say "[JARVIS] This feature requires network connectivity.\n",
     .resetColor], env⟩

/-! ## The table -/

structure ShellCommand where
  name : String
  handler : Handler

def commands : List ShellCommand :=
  [⟨"help", cmdHelp⟩, ⟨"?", cmdHelp⟩, ⟨"clear", cmdClear⟩, ⟨"cls", cmdClear⟩, ⟨"echo", cmdEcho⟩,
   ⟨"ls", cmdLs⟩, ⟨"dir", cmdLs⟩, ⟨"cd", cmdCd⟩, ⟨"pwd", cmdPwd⟩, ⟨"cat", cmdCat⟩,
   ⟨"type", cmdCat⟩, ⟨"mkdir", cmdMkdir⟩, ⟨"md", cmdMkdir⟩, ⟨"rm", cmdRm⟩, ⟨"del", cmdRm⟩,
   ⟨"cp", cmdCp⟩, ⟨"copy", cmdCp⟩, ⟨"mv", cmdMv⟩, ⟨"rename", cmdMv⟩, ⟨"ps", cmdPs⟩,
   ⟨"kill", cmdKill⟩, ⟨"meminfo", cmdMeminfo out⟩, ⟨"free", cmdMeminfo out⟩,
   ⟨"cpuinfo", cmdCpuinfo⟩, ⟨"diskinfo", cmdDiskinfo⟩, ⟨"df", cmdDiskinfo⟩,
   ⟨"netinfo", cmdNetinfo⟩, ⟨"ifconfig", cmdIfconfig⟩, ⟨"ip", cmdIfconfig⟩, ⟨"ping", cmdPing⟩,
   ⟨"date", cmdDate⟩, ⟨"time", cmdDate⟩, ⟨"uptime", cmdUptime⟩, ⟨"reboot", cmdReboot⟩,
   ⟨"restart", cmdReboot⟩, ⟨"shutdown", cmdShutdown⟩, ⟨"halt", cmdShutdown⟩,
   ⟨"jarvis", cmdJarvis place⟩, ⟨"ai", cmdJarvis place⟩, ⟨"learn", cmdLearn out place⟩,
   ⟨"think", cmdThink⟩, ⟨"evolve", cmdEvolve out⟩, ⟨"search", cmdSearch place⟩,
   ⟨"status", cmdStatus out⟩, ⟨"version", cmdVersion⟩, ⟨"ver", cmdVersion⟩, ⟨"edit", cmdEdit⟩,
   ⟨"compile", cmdCompile⟩, ⟨"debug", cmdDebug⟩]

/-- `"What is the command: %s"`. -/
def questionFormat : CStr := ⟨"What is the command: %s".toList.map ch, by decide⟩

/-- Stores at indices, the latest first, into the array at `p`. -/
def storeAt (p : Nat) (writes : List (Nat × U8)) (m : Memory) : Memory :=
  writes.foldr (fun w m => m.store (p + w.1) w.2) m

/-- A word that is no command. -/
def unknownCommand (cmd : CStr) (env : Env) : Except Fault Reply := do
  let mem := storeAt place.query (snprintf 512 questionFormat (varargs [.str cmd])).2 env.mem
  let query ← stringAt mem 512 place.query
  let (response, env) ← ask place query 1024 (env.setMem mem)
  return ⟨.notfound,
    [.aiOutput,
     .printf "[JARVIS] Command not found: %s\n" [.str cmd],
     say "[JARVIS] Let me analyze this...\n",
     .resetColor,
     .aiOutput,
     .printf "[JARVIS] %s\n" [.str response],
     .resetColor], env⟩

/-- `strcmp` is 0 for equal strings only. -/
def shellExecute : Handler := fun argv env =>
  match argv with
  | [] => .ok ⟨.ok, [], env⟩
  | cmd :: _ =>
    match (commands out place).find? fun c => cmd.bytes = literal c.name with
    | some c => c.handler argv env
    | none => unknownCommand place cmd env

/-- The line in the cleared buffer, taken apart and executed. -/
def shellLine (line : CStr) (env : Env) : Except Fault Reply := do
  let mem := (env.mem.storeAll place.shellBuffer (List.replicate shellBufferSize 0)).storeAll
    place.shellBuffer (line.bytes ++ [0])
  match shellParseLine (line.bytes.length + 2) mem place.shellBuffer with
  | none => .error .endless
  | some s =>
    let argv ← s.argv.mapM (stringAt s.mem shellBufferSize)
    shellExecute out place argv (env.setMem s.mem)

/-- `SHELL_PROMPT`. -/
def shellPrompt : CStr := ⟨"JARVIS> ".toList.map ch, by decide⟩

def prompt : List Call := [.aiOutput, .printf "%s" [.str shellPrompt], .resetColor]

def shellInit : List Call :=
  [say "\n",
   .setColor .lightCyan .black,
   say "╔══════════════════════════════════════════════════════════════╗\n",
   say "║              JARJARVIS Interactive Shell                     ║\n",
   say "║         Type 'help' for available commands                   ║\n",
   say "╚══════════════════════════════════════════════════════════════╝\n",
   .resetColor,
   say "\n"]

/-- What a turn of the loop does on the console, and what it leaves. -/
structure Turn where
  result : JarResult
  ops : List Op
  env : Env

def shellTurn (line : CStr) (env : Env) : Except Fault Turn := do
  let reply ← shellLine out place line env
  let ops ← allOps (prompt ++ reply.calls)
  return ⟨reply.result, ops, reply.env⟩

/-- A session: one line after the other. -/
def shellTurns : List CStr → Env → Except Fault (List JarResult × List Op × Env)
  | [], env => .ok ([], [], env)
  | line :: lines, env => do
    let turn ← shellTurn out place line env
    let (results, ops, env) ← shellTurns lines turn.env
    return (turn.result :: results, turn.ops ++ ops, env)

/-- The shell is started and given some lines. -/
def shellRun (lines : List CStr) (env : Env) : Except Fault (List JarResult × List Op × Env) := do
  let banner ← allOps shellInit
  let (results, ops, env) ← shellTurns out place lines env
  return (results, banner ++ ops, env)

end

end JarJar.ShellCommands
