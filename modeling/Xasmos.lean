import Xasmos.Exb.LoadRace
import Xasmos.Exb.PackParse
import Xasmos.Exfs.Content
import Xasmos.Exfs.FormatCrash
import Xasmos.Exfs.FormatFail
import Xasmos.Exfs.MapCrash
import Xasmos.Exfs.MapSpace
import Xasmos.Exfs.PoolRuns
import Xasmos.Exfs.PowerLoss
import Xasmos.Exfs.Sizes
import Xasmos.Exfs.SuperblockPage
import Xasmos.Exfs.Unbroken
import Xasmos.Kernel.Boot
import Xasmos.Kernel.FrameRuns
import Xasmos.Kernel.LoadFrames
import Xasmos.Kernel.Mmio
import Xasmos.Kernel.TokenRun
import Xasmos.Kernel.Usage
import Xasmos.Nvme.Acks
import Xasmos.Pci.Bars
import Xasmos.Syslib.Xqueue
import Xasmos.Xerlibc.Mem
