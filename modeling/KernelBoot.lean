import KernelBoot.Tags.Walker
import KernelBoot.Boot.Load
import KernelBoot.Board.Firmware
import KernelBoot.Board.Media
import KernelBoot.ImageTool.HostTree
import KernelBoot.Uefi.Status
import KernelBoot.Uefi.Options
import KernelBoot.Inflate.Stream
import KernelBoot.Uefi.Application
import KernelBoot.Main
import KernelBoot.Proofs.Archive.RoundTrip
import KernelBoot.Proofs.Ramdisk.Rewrite
import KernelBoot.Proofs.Ramdisk.Directories
import KernelBoot.Proofs.Ramdisk.ParentOrder
import KernelBoot.Proofs.Boot.Contract
import KernelBoot.Proofs.Boot.Claims
import KernelBoot.Proofs.Archive.Appending
import KernelBoot.Proofs.Ramdisk.Written
import KernelBoot.Proofs.Boot.Segments
import KernelBoot.Proofs.Tags.Lists
import KernelBoot.Proofs.Boot.Patching
import KernelBoot.Proofs.Boot.Placing
import KernelBoot.Proofs.Boot.TagArea
import KernelBoot.Proofs.Boot.Loading
import KernelBoot.Proofs.Board.Lawful
import KernelBoot.Proofs.Archive.Growing
import KernelBoot.Proofs.Tags.Calls
import KernelBoot.Proofs.Boot.PlanRuns
import KernelBoot.Proofs.Boot.ImageFaults
import KernelBoot.Proofs.Boot.MemoryRecords
import KernelBoot.Proofs.Archive.Settling
import KernelBoot.Proofs.Boot.InternalErrors
import KernelBoot.Proofs.Boot.Frame
import KernelBoot.Proofs.Archive.InsertionPoint
import KernelBoot.Proofs.Ramdisk.Strategies
import KernelBoot.Proofs.Boot.TagReach
import KernelBoot.Proofs.BootImage.HeaderBytes
import KernelBoot.Proofs.ImageTool.Parts
import KernelBoot.Proofs.ImageTool.ReadBack
import KernelBoot.Proofs.BootImage.HeaderCodec
import KernelBoot.Proofs.Boot.Alike
import KernelBoot.Proofs.Boot.UnreadBytes
import KernelBoot.Proofs.Boot.Sources
import KernelBoot.Proofs.ImageTool.Trees
import KernelBoot.Proofs.ImageTool.Packing
import KernelBoot.Proofs.Archive.ShortReads
import KernelBoot.Proofs.Archive.ShortWrites
import KernelBoot.Proofs.Ramdisk.NeededDirectories
import KernelBoot.Proofs.Boot.GzipFrame
import KernelBoot.Proofs.Tags.Grammar
import KernelBoot.Proofs.Boot.ListingOrder
import KernelBoot.Proofs.Boot.CompressedRamdisk
import KernelBoot.Proofs.BootImage.WordLayout
import KernelBoot.Proofs.BootImage.CommandLineFields
import KernelBoot.Proofs.Boot.CommandLineParts
import KernelBoot.Proofs.Uefi.ArgumentWords
import KernelBoot.Proofs.Uefi.OptionGrammar
import KernelBoot.Proofs.Uefi.OwnDirectory
import KernelBoot.Proofs.Uefi.ClaimAbove
import KernelBoot.Proofs.Uefi.RawReads
import KernelBoot.Proofs.Uefi.FileListings
import KernelBoot.Proofs.Archive.FieldCodec
import KernelBoot.Proofs.PageArithmetic
import KernelBoot.Proofs.Archive.CursorCalls
