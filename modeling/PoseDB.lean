import PoseDB.Graph.Carry
import PoseDB.Graph.Depth
import PoseDB.Graph.SlotOptimal
import PoseDB.Graph.Paths
import PoseDB.Region.DiskWave
import PoseDB.Region.Scratch
import PoseDB.Cuda.Bounds
import PoseDB.Hash.Sha256
import PoseDB.Hash.Blake3Node
import PoseDB.Wipe.Outcome
import PoseDB.Wipe.Device
import PoseDB.Calc.Sweep
import PoseDB.Calc.Bench
import PoseDB.Hash.KeyedLabel
import PoseDB.Region.Threads
