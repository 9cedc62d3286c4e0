import KernelBoot.Boot.Load
import KernelBoot.Uefi.Machine
import KernelBoot.Uefi.Options

/-!
The application: it reads its load options, loads the boot image they name, and starts it. It comes
back only to say why that failed, with a line in the log and the status of the failure.
-/
namespace KernelBoot
namespace LaunchOptions

def request (o : LaunchOptions) : LoadRequest where
  arguments := o.kernelArguments
  multiboot := o.multiboot
  rootDevice := o.rootDevice
  searchPrefix := o.searchPrefix
  loaderPath := o.loaderPath

def config (o : LaunchOptions) : LoaderConfig :=
  if o.append then { LoaderConfig.default with strategy := .append } else .default

/-- The options that an application finds; what is no text counts as no options. -/
def find (script : MachineScript) : Except LoadError LaunchOptions :=
  parse ((script.loadOptions.bind WideText.text?).getD "")
    (loaderDir (WideText.shown (script.ownPath.getD "")))

end LaunchOptions

namespace Machine

abbrev Loader := UefiPlatform Machine

def note (message : String) : Attempt Loader ε Unit :=
  Attempt.log (LogTarget.application.line .info message)

def openSource (location : ImageLocation) : Attempt Loader LoadError (Source Loader) :=
  let unreadable (e : StorageError) : LoadError := .read "boot image" (.storage e)
  match location with
  | .disk device => do
    note s!"Loading boot image from device {device} ..."
    let disks ← Attempt.ask fun p => p.system.script.disks
    let medium ← (openMedium disks device).mapError unreadable
    return .ofDisk medium.device
  | .file path => do
    note s!"Loading boot image {path} ..."
    let reader ← (UefiPlatform.call (files.openReader path)).mapError unreadable
    return .ofFile reader.onPlatform

def prepare (options : LaunchOptions) : Attempt Loader LoadError PreparedBoot := do
  let location ← Attempt.ofExcept options.location
  let source ← openSource location
  let prepared ← load source (UefiPlatform.firmware services) storage options.request options.config
  note s!"Boot image loaded: {prepared.commandLine.text.length} bytes of command line, entry at {Address.text prepared.entry}"
  return prepared

def launch : Effect Loader LoadError := do
  match LaunchOptions.find (← Effect.ask fun p => p.system.script) with
  | .error e => return e
  | .ok options =>
    match ← (prepare options).run with
    | .error e => return e
    | .ok prepared => boot (UefiPlatform.firmware services) prepared

def application : Effect Loader UefiStatus := do
  let e ← launch
  Effect.log (LogTarget.application.line .error e.message)
  return .ofLoad e

def run (script : MachineScript) : UefiStatus × Session Machine :=
  let (status, s) := application.run ⟨⟨.new script, []⟩, .new LogLevel.debug.rank⟩
  (status, ⟨s.world.system, s.logger⟩)

end Machine
end KernelBoot
