import Qsycl.Lib.Words
import Qsycl.Lib.WorkItems
import Qsycl.Lib.Qubits
import Qsycl.Lib.Basis
import Qsycl.Lib.Paulis
import Qsycl.Lib.Rotations
import Qsycl.Lib.Exponentials
import Qsycl.Lib.ParameterShift
import Qsycl.Lib.SortedMap
import Qsycl.Types
import Qsycl.Circuit
import Qsycl.Gates
import Qsycl.Kernels
import Qsycl.Backends
import Qsycl.Simulation
import Qsycl.GateIdentities
import Qsycl.Observable
import Qsycl.Evaluation
import Qsycl.Native
import Qsycl.NativeCorrect
import Qsycl.ShotExpectation
import Qsycl.Translators
import Qsycl.Ansatz
import Qsycl.Qaoa
import Qsycl.Gradient
import Qsycl.GradientCorrect
import Qsycl.Lib.Runs
import Qsycl.Optimizers
import Qsycl.OptimizersAgree
import Qsycl.QpuBackend
import Qsycl.Qmio
import Qsycl.PickleSafety
import Qsycl.PickleStreams
import Qsycl.WideNumbers
import Qsycl.CircuitRuns
import Qsycl.Runtime
import Qsycl.Dispatcher
import Qsycl.CunqaBackend
import Qsycl.Readout
import Qsycl.RemoteReadout
import Qsycl.Provenance
import Qsycl.Rejection
import Qsycl.Uncompute
import Qsycl.PickleRequest
import Qsycl.Grouping
import Qsycl.Lib.Search
import Qsycl.Maxcut
import Qsycl.Algorithms
import Qsycl.CountKeys
import Qsycl.CountObjects
import Qsycl.QmioErrors
import Qsycl.Doubles
import Qsycl.QasmAngles
import Qsycl.TwoLocal
import Qsycl.Appends
import Qsycl.Lib.Ieee
import Qsycl.Restarts
import Qsycl.Commutation
import Qsycl.SizeArithmetic
import Qsycl.Timeouts
import Qsycl.LongOpcodes
import Qsycl.Signs
import Qsycl.Adam
import Qsycl.Devices
import Qsycl.Lib.Fourier
import Qsycl.Lib.Spectrum
import Qsycl.Qft
import Qsycl.Vqe
import Qsycl.GpuMemory
import Qsycl.NativeMemory
import Qsycl.Hamiltonians
import Qsycl.Lib.Prefixes
import Qsycl.Lib.Symmetry
import Qsycl.PicklePrefix
import Qsycl.QaoaSymmetry
import Qsycl.Curvature
import Qsycl.Descent
import Qsycl.PickleGrowth
import Qsycl.ShotBounds
import Qsycl.BasisStates
