import TensorKernel.Main
import TensorKernel.Proofs.Spill.Restore
import TensorKernel.Proofs.Kernel.LargerPools
import TensorKernel.Proofs.Kernel.Carried
import TensorKernel.Proofs.Kernel.SplitCost
import TensorKernel.Proofs.Kernel.Reapplied
import TensorKernel.Proofs.Kernel.Aliasing
import TensorKernel.Proofs.Loop.Displacement
import TensorKernel.Proofs.Kernel.Distinct
import TensorKernel.Proofs.Kernel.Held
import TensorKernel.Proofs.Allocation.Calls
import TensorKernel.Proofs.Spill.SaveArea
import TensorKernel.Proofs.Subgraph.References
import TensorKernel.Proofs.Subgraph.File
import TensorKernel.Proofs.Kernel.Naming
import TensorKernel.Proofs.Kernel.StoreCopies
