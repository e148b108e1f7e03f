import ParSort.Aocl.Proof.Path
import ParSort.Cuda.Proof.Agree
import ParSort.Cuda.Proof.Host
import ParSort.Driver.Proof.Input
import ParSort.Fpga.Proof.Access
import ParSort.Fpga.Proof.Host
import ParSort.Fpga.Proof.Objects
import ParSort.Fpga.Proof.Runs
import ParSort.Fpga.Proof.Sort
import ParSort.Pthread.Proof.Bitonic
import ParSort.Simd.Proof.Commands
import ParSort.Simd.Proof.Startup
