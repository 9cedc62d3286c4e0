import KernelBoot.Archive.Table
import KernelBoot.Address

/-!
What a caller may tune for one boot, and the names that the loader shares with its platform.
-/
namespace KernelBoot

/-- How a ramdisk grows: rebuilt from its members, or with records added at its trailer. -/
inductive PatchStrategy where
  | rewrite
  | append
deriving DecidableEq

structure LoaderConfig where
  /-- Directory below the search prefix whose files are injected. -/
  multibootDir : String
  /-- File of that directory that becomes the ramdisk's init. -/
  initSource : String
  initName : String
  /-- Archive directory of the injected files. -/
  injectRoot : String
  nestedName : String
  loaderPathKey : String
  strategy : PatchStrategy
  maxRamdiskSize : Nat
  maxEntries : Nat
  tagAreaSize : Nat
deriving DecidableEq

namespace LoaderConfig

def default : LoaderConfig where
  multibootDir := "multiboot"
  initSource := "sbin/init"
  initName := "init.multiboot"
  injectRoot := "multiboot"
  nestedName := "grub_ramdisk"
  loaderPathKey := "multiboot.grubdir"
  strategy := .rewrite
  maxRamdiskSize := 64 * 1024 * 1024
  maxEntries := Archive.defaultCapacity
  tagAreaSize := 16 * 1024

end LoaderConfig

/-! The names of platform variables. -/

namespace Variable

def kernelAddress : String := "android_kernel_addr"

def kernel64Address : String := "android_kernel64_addr"

def ramdiskAddress : String := "android_ramdisk_addr"

def tagsAddress : String := "android_tags_addr"

def machineType : String := "android_machine_type"

def additionalCommandLine : String := "android_additional_cmdline"

end Variable

def relocationSlack : Nat := PageSize.platform.bytes

end KernelBoot
