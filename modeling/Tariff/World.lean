/-
  What a run of the program finds around it: the disk, the environment and the platform.
-/
import Tariff.Config.Environment
import Tariff.Disk

namespace Tariff

structure Platform where
  os : String
  arch : String

structure World where
  disk : Disk
  environment : Config.Environment
  platform : Platform

end Tariff
