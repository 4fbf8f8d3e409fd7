import NervesInitramfs.CLib.Proofs.CNumberProofs
import NervesInitramfs.Uboot.Proofs.RoundTripProofs
import NervesInitramfs.Uboot.Proofs.LinksProofs
import NervesInitramfs.Uboot.Proofs.AccessProofs
import NervesInitramfs.Uboot.Proofs.CorruptionProofs
import NervesInitramfs.Uboot.Proofs.FitProofs
import NervesInitramfs.Util.Proofs.TrimProofs
import NervesInitramfs.Block.Proofs.ProbeProofs
import NervesInitramfs.Block.Proofs.AccessProofs
import NervesInitramfs.Rootfs.Proofs.CleanupProofs
import NervesInitramfs.Script.Proofs.NullProofs
import NervesInitramfs.Script.Proofs.ResolveProofs
import NervesInitramfs.Script.Proofs.SettingProofs
import NervesInitramfs.Script.Proofs.FlagProofs
import NervesInitramfs.Script.Proofs.PlaceProofs
import NervesInitramfs.Script.Proofs.LexerProofs
import NervesInitramfs.Script.Proofs.BootProofs
import NervesInitramfs.Script.Proofs.CompareProofs
import NervesInitramfs.Script.Proofs.DeviceProofs
import NervesInitramfs.Script.Proofs.SequenceProofs
import NervesInitramfs.Script.Heap.Proofs.RunProofs
import NervesInitramfs.Script.Heap.Proofs.FullnessProofs
import NervesInitramfs.Script.Proofs.ArityProofs
import NervesInitramfs.Script.Proofs.EnvValueProofs
import NervesInitramfs.Block.Devices
import NervesInitramfs.Block.Proofs.DevicesProofs
import NervesInitramfs.Block.Proofs.FindProofs
import NervesInitramfs.Block.Proofs.WaitProofs
import NervesInitramfs.Cmd.Proofs.SystemCmdProofs
import NervesInitramfs.Rootfs.Proofs.RootdiskProofs
import NervesInitramfs.CLib.Derivation
import NervesInitramfs.Script.Reading
import NervesInitramfs.Script.Proofs.ReadingProofs
import NervesInitramfs.Script.Proofs.PrecedenceProofs
import NervesInitramfs.Script.Proofs.ConditionProofs
import NervesInitramfs.Script.Proofs.NumeralProofs
import NervesInitramfs.Script.Heap.Bytes
import NervesInitramfs.Script.Heap.Proofs.BytesProofs
import NervesInitramfs.Script.Heap.Lists
import NervesInitramfs.Script.Heap.Proofs.CalmProofs
import NervesInitramfs.Script.Heap.Proofs.ListsProofs
import NervesInitramfs.CLib.Refine
import NervesInitramfs.Script.Heap.Proofs.FollowRunProofs
import NervesInitramfs.Script.Heap.Sequence
import NervesInitramfs.Script.Heap.Proofs.JoinedProofs
import NervesInitramfs.Linenoise.Proofs.HistoryProofs
import NervesInitramfs.Boot.Proofs.PlanProofs
import NervesInitramfs.Boot.Proofs.DescriptorProofs
import NervesInitramfs.Boot.Proofs.ArgumentProofs
import NervesInitramfs.Linenoise.Proofs.TypedProofs
import NervesInitramfs.Linenoise.Proofs.ScreenProofs
