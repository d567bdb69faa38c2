import PhyNspire.App.Device
import PhyNspire.Cas.DiscreteShifts
import PhyNspire.Cas.Operations
import PhyNspire.Cas.PolyRoundTrip
import PhyNspire.Cas.RootBoxes
import PhyNspire.Cas.SeriesCompose
import PhyNspire.Component.Symmetry
import PhyNspire.Eval.Coordinates
import PhyNspire.Exact.BallRuns
import PhyNspire.Exact.DecimalRoundTrip
import PhyNspire.FinitePoly.Factors
import PhyNspire.Ir.Bracketings
import PhyNspire.Ir.DeclarationRoundTrip
import PhyNspire.Notebook.Faithfulness
import PhyNspire.Qft.LieLaws
import PhyNspire.Qft.YangMills
import PhyNspire.Render.Unambiguous
import PhyNspire.Storage.Catalog
import PhyNspire.Tensor.SymmetricRuns
