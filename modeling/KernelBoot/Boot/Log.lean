import KernelBoot.Text.Split

/-!
The loader's log. A line goes to the console while the firmware still offers one, and to a trace
channel always, if there is one; a logger passes on the lines at its level or worse.
-/
namespace KernelBoot

inductive LogLevel where
  | error
  | warn
  | info
  | debug
  | trace
deriving DecidableEq

namespace LogLevel

/-- Worse levels come first. -/
def rank : LogLevel → Nat
  | .error => 1
  | .warn => 2
  | .info => 3
  | .debug => 4
  | .trace => 5

def name : LogLevel → String
  | .error => "ERROR"
  | .warn => "WARN"
  | .info => "INFO"
  | .debug => "DEBUG"
  | .trace => "TRACE"

end LogLevel

structure LogLine where
  level : LogLevel
  target : String
  message : String
deriving DecidableEq

def LogLine.text (l : LogLine) : String := s!"[{l.level.name}] {l.target}: {l.message}"

inductive LogTarget where
  | loader
  | plan
  | ramdisk
  | tags
  | handoff
  | application
  | firmware
  | fileSystem
  | block

namespace LogTarget

def name : LogTarget → String
  | .loader => "android_loader::loader"
  | .plan => "android_loader::plan"
  | .ramdisk => "android_loader::ramdisk"
  | .tags => "android_loader::tags"
  | .handoff => "handoff"
  | .application => "android_uefi::app"
  | .firmware => "android_uefi::firmware"
  | .fileSystem => "android_uefi::file_system"
  | .block => "android_uefi::block"

def line (target : LogTarget) (level : LogLevel) (message : String) : LogLine :=
  ⟨level, target.name, message⟩

end LogTarget

/-- `limit` is the rank of the least severe level that is passed on. -/
structure Logger where
  limit : Nat
  traced : Bool
  consoleOpen : Bool
  console : List String
  /-- What went to the trace channel, which wants a line feed behind each line. -/
  trace : List String

namespace Logger

def new (limit : Nat) : Logger := ⟨limit, false, true, [], []⟩

def withTrace (l : Logger) : Logger := { l with traced := true }

def enabled (l : Logger) (level : LogLevel) : Bool := level.rank ≤ l.limit

def log (l : Logger) (line : LogLine) : Logger :=
  if l.enabled line.level then
    { l with
      console := if l.consoleOpen then l.console ++ [line.text] else l.console
      trace := if l.traced then l.trace ++ [line.text ++ "\n"] else l.trace }
  else l

def screen (l : Logger) : List String :=
  l.console.flatMap fun text => (Text.pieces (· == '\n') text.toList).map String.ofList

def closeConsole (l : Logger) : Logger := { l with consoleOpen := false }

end Logger
end KernelBoot
